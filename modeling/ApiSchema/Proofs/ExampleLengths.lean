import ApiSchema.Proofs.ExampleFilling

/-!
# Lengths of examples

A text with bounds on its length gets an example of the usual length, or of the nearest length to it that the bounds
allow (`lengthBetween`). A bound of zero counts as no bound. For a lower bound that makes no difference; but where no
character is allowed at all, the example has the usual length, as if there were no upper bound
(`Facets.HasLengths.valueFor_eq`). An example is cut from a repeated word, so one of almost the greatest length of a
text cannot be made (`lengthLimit`).

So an example keeps to its bounds exactly if the upper one is not zero and the lower one is not too large
(`synthesize_string_between`).
-/
namespace ApiSchema

open Text

/-- The length nearest to the usual one that two bounds allow. -/
def lengthBetween (least most : Option Nat) : Nat :=
  most.elim (max (least.getD 0) usualLength) (min (max (least.getD 0) usualLength))

/-- A whole number that is not negative. -/
abbrev Value.whole (n : Nat) : Value := .int n

/-- Bounds on the length of a text, and nothing else to take an example from. -/
structure Facets.HasLengths (f : Facets) (least most : Option Nat) : Prop where
  sample : f.sample = none
  enumValues : f.enumValues.getD [] = []
  format : f.format = none
  pattern : f.constraints.bind (·.pattern) = none
  minLength : f.constraints.bind (·.minLength) = least.map .whole
  maxLength : f.constraints.bind (·.maxLength) = most.map .whole
  ordered : ∀ a ∈ least, ∀ b ∈ most, a ≤ b

section

variable {tables : ExampleTables} {f : Facets} {least most : Option Nat}

theorem le_lengthBetween (h : ∀ a ∈ least, ∀ b ∈ most, a ≤ b) : ∀ a ∈ least, a ≤ lengthBetween least most := by
  rintro a rfl
  cases most with
  | none => exact Nat.le_max_left _ _
  | some b => exact Nat.le_min.2 ⟨Nat.le_max_left _ _, h a rfl b rfl⟩

theorem lengthBetween_le : ∀ b ∈ most, lengthBetween least most ≤ b := by
  rintro b rfl
  exact Nat.min_le_right _ _

/-- The least length that no example can have. -/
def lengthLimit : Nat := maxLength - 1

theorem stretched_string_le_iff (n : Nat) : stretched "string".toList n ≤ maxLength ↔ n < lengthLimit := by
  have hlength : max "string".toList.length 1 = 6 := rfl
  rw [stretched_natCast, hlength, lengthLimit, maxLength]
  omega

theorem exists_textOfLength {n : Nat} (h : n < lengthLimit) : ∃ t, textOfLength n = .ok t ∧ t.length = n := by
  obtain ⟨cs, hcs, hlength, -⟩ := exists_cycle (by decide) ((stretched_string_le_iff n).2 h)
  exact ⟨String.ofList cs, by rw [textOfLength, hcs]; rfl, by rw [String.length_ofList, hlength]⟩

theorem textOfLength_of_le {n : Nat} (h : lengthLimit ≤ n) : textOfLength n = .error .overflow := by
  have hlong := mt (stretched_string_le_iff n).1 (Nat.not_lt.2 h)
  rw [textOfLength, cycle_of_lt (Nat.not_le.1 hlong)]
  rfl

/-- The example of a length, if there is one. -/
def exampleOfLength (n : Nat) : Except Fault (Option Value) := (textOfLength n).map fun t => some (.str t)

/-! ## The length of an example -/

theorem less_whole (a b : Nat) : Operand.less (.whole a) (.whole b) = decide (a < b) := by
  simp [Operand.less]

theorem larger_whole (a b : Nat) :
    (if Operand.less (.whole a) (.whole b) then Operand.whole b else .whole a) = .whole (max a b : Nat) := by
  rw [less_whole, ← apply_ite Operand.whole]
  congr 1
  grind

theorem smaller_whole (a b : Nat) :
    (if Operand.less (.whole b) (.whole a) then Operand.whole b else .whole a) = .whole (min a b : Nat) := by
  rw [less_whole, ← apply_ite Operand.whole]
  congr 1
  grind

/-- A length that is a whole number. -/
def Operand.length : Operand → Except Fault Int
  | .whole n => .ok n
  | .real _ => .error .mismatch

/-- A lower bound is compared with the usual length; one of zero and a missing one are less. -/
theorem exampleLength_none (least : Option Nat) :
    exampleLength (least.map .whole) none = .ok (max (least.getD 0) usualLength : Nat) := by
  refine .trans ?_ (congrArg Operand.length (larger_whole (least.getD 0) usualLength))
  cases least with
  | none => rfl
  | some n => cases n <;> rfl

/-- An upper bound is compared with what comes out without it. -/
theorem exampleLength_some (least : Option Nat) (b : Nat) :
    exampleLength (least.map .whole) (some (.whole b)) = .ok (min (max (least.getD 0) usualLength) b : Nat) := by
  refine .trans ?_ (congrArg Operand.length (smaller_whole (max (least.getD 0) usualLength) b))
  rw [← larger_whole]
  cases least with
  | none => rfl
  | some n => cases n <;> rfl

theorem exampleLength_whole (least most : Option Nat) :
    exampleLength (least.map .whole) (most.map .whole) = .ok (lengthBetween least most : Nat) := by
  cases most with
  | none => exact exampleLength_none least
  | some b => exact exampleLength_some least b

/-! ## Texts with bounds -/

theorem isSet_whole (n : Option Nat) : isSet (n.map .whole) = (n.getD 0 != 0) := by
  cases n with
  | none => rfl
  | some n => cases n <;> rfl

/-- Without a bound other than zero, the example is that of the kind, and has the usual length. -/
theorem lookup_string (hkinds : tables.kinds = kindExamples) (hleast : least.getD 0 = 0) :
    .ok (tables.kinds.lookup .string) = exampleOfLength (lengthBetween least none) := by
  have hlength : lengthBetween least none = usualLength := by simp [lengthBetween, hleast]
  have htext : textOfLength usualLength = .ok "string" := rfl
  rw [hlength, hkinds, exampleOfLength, htext]
  rfl

theorem Facets.HasLengths.constraintExample_eq (h : f.HasLengths least most) {c : Constraints}
    (hc : f.constraints = some c) :
    constraintExample .string c = if least.getD 0 = 0 ∧ most.getD 0 = 0 then .ok none
      else exampleOfLength (lengthBetween least most) := by
  obtain ⟨-, -, -, hpattern, hmin, hmax, -⟩ := h
  rw [hc] at hpattern hmin hmax
  have hpattern : c.pattern = none := hpattern
  have hmin : c.minLength = least.map .whole := hmin
  have hmax : c.maxLength = most.map .whole := hmax
  unfold constraintExample
  rw [if_neg (by decide), hpattern, hmin, hmax, isSet_whole, isSet_whole, exampleLength_whole]
  by_cases hzero : least.getD 0 = 0 ∧ most.getD 0 = 0
  · rw [if_pos hzero, if_neg (by simp [hzero, isSet])]
  · rw [if_neg hzero, if_pos (by simp [isSet]; grind), exampleOfLength]
    simp only [bind, Except.bind]
    generalize textOfLength (lengthBetween least most) = text
    cases text <;> rfl

/-- The bounds decide, unless they are zero. -/
theorem Facets.HasLengths.bounded_eq (h : f.HasLengths least most) :
    f.constraints.elim (.ok none) (constraintExample .string) =
      if least.getD 0 = 0 ∧ most.getD 0 = 0 then .ok none else exampleOfLength (lengthBetween least most) := by
  have hmin := h.minLength
  have hmax := h.maxLength
  cases hc : f.constraints with
  | some c => exact h.constraintExample_eq hc
  | none =>
    rw [hc, Option.bind_none, eq_comm, Option.map_eq_none_iff] at hmin hmax
    rw [hmin, hmax]
    rfl

theorem Facets.HasLengths.candidate_eq (h : f.HasLengths least most) : candidate tables .string f none =
    (f.constraints.elim (.ok none) (constraintExample .string)).map (·.or (tables.kinds.lookup .string)) := by
  unfold candidate
  split
  · rename_i v vs hvs
    have henum := h.enumValues
    rw [hvs] at henum
    cases henum
  · rw [h.format]
    cases f.constraints with
    | none => rfl
    | some c =>
      rw [Option.elim_some]
      cases hc : constraintExample .string c with
      | error e => simp [formatExample, nameExample, bind, Except.bind, Except.map, hc]
      | ok v => cases v <;> simp [formatExample, nameExample, bind, Except.bind, pure, Except.pure, Except.map, hc]

theorem Facets.HasLengths.valueFor_eq (h : f.HasLengths least most) (hkinds : tables.kinds = kindExamples) :
    valueFor tables .string f none = liftM (exampleOfLength (lengthBetween least (most.filter (0 < ·)))) := by
  have hcandidate : candidate tables .string f none = exampleOfLength (lengthBetween least (most.filter (0 < ·))) := by
    rw [h.candidate_eq, h.bounded_eq]
    by_cases hzero : least.getD 0 = 0 ∧ most.getD 0 = 0
    · have hmost : most.filter (0 < ·) = none := by cases most <;> simp_all
      rw [if_pos hzero, hmost, ← lookup_string hkinds hzero.1]
      rfl
    · have hmost : most.filter (0 < ·) = most := by
        cases most with
        | none => rfl
        | some b =>
          have := h.ordered
          cases least <;> simp_all <;> omega
      rw [if_neg hzero, hmost, exampleOfLength]
      cases textOfLength (lengthBetween least most) <;> rfl
  unfold valueFor
  rw [hcandidate, h.pattern, exampleOfLength]
  cases textOfLength (lengthBetween least (most.filter (0 < ·))) <;> rfl

theorem Facets.HasLengths.synthesize_iff (h : f.HasLengths least most) (hkinds : tables.kinds = kindExamples)
    (hf : f.circularRef = none) (t : String) :
    synthesize tables none (.scalar .string f) = .ok (.scalar .string { f with sample := some (.str t) }) ↔
      textOfLength (lengthBetween least (most.filter (0 < ·))) = .ok t := by
  have hvalue : valueFor tables (.scalar .string) f none = _ := h.valueFor_eq hkinds
  rw [synthesize_scalar_iff hf h.sample, hvalue, exampleOfLength]
  cases textOfLength (lengthBetween least (most.filter (0 < ·))) with
  | error e =>
    constructor
    · rintro ⟨v, hv, -⟩
      cases hv
    · rintro ⟨⟩
  | ok t' =>
    constructor
    · rintro ⟨v, hv, hnode⟩
      cases hv
      injection hnode with _ hfacets
      cases congrArg Facets.sample hfacets
      rfl
    · rintro ⟨⟩
      exact ⟨_, rfl, rfl⟩

theorem synthesize_ne_of_placeholder {k : Scalar} {field : Option String} (hf : f.circularRef ≠ none)
    (hs : f.sample = none)
    (v : Value) : synthesize tables field (.scalar k f) ≠ .ok (.scalar k { f with sample := some v }) := by
  have hplaceholder : (Node.scalar k f).isPlaceholder = true := Option.isSome_iff_ne_none.2 hf
  rw [synthesize_placeholder hplaceholder]
  intro hnode
  injection hnode with hnode
  injection hnode with _ hfacets
  cases hs.symm.trans (congrArg Facets.sample hfacets)

theorem lengthBetween_lt (h : ∀ a ∈ least, a < lengthLimit) : lengthBetween least most < lengthLimit := by
  have hlow : max (least.getD 0) usualLength < lengthLimit := by
    refine Nat.max_lt.2 ⟨?_, by decide⟩
    cases least with
    | none => decide
    | some a => exact h a rfl
  cases most with
  | none => exact hlow
  | some b => exact Nat.lt_of_le_of_lt (Nat.min_le_left _ _) hlow

/-- A text with bounds on its length gets an example that keeps to them exactly if it is no placeholder, may have a
character at all, and need not be longer than what can be cut from a repeated word. -/
theorem synthesize_string_between (h : f.HasLengths least most) (hkinds : tables.kinds = kindExamples) :
    (∃ t, synthesize tables none (.scalar .string f) = .ok (.scalar .string { f with sample := some (.str t) }) ∧
      (∀ a ∈ least, a ≤ t.length) ∧ ∀ b ∈ most, t.length ≤ b) ↔
    f.circularRef = none ∧ most ≠ some 0 ∧ ∀ a ∈ least, a < lengthLimit := by
  by_cases hf : f.circularRef = none
  · simp only [h.synthesize_iff hkinds hf, and_iff_right hf]
    constructor
    · rintro ⟨t, ht, hleast, hmost⟩
      by_cases hlimit : lengthBetween least (most.filter (0 < ·)) < lengthLimit
      · obtain ⟨t', ht', hlength⟩ := exists_textOfLength hlimit
        cases ht.symm.trans ht'
        rw [hlength] at hleast hmost
        refine ⟨?_, fun a ha => Nat.lt_of_le_of_lt (hleast a ha) hlimit⟩
        rintro rfl
        -- Without an upper bound the example has at least the usual length.
        have hlong : usualLength ≤ lengthBetween least none := Nat.le_max_right _ _
        exact absurd (Nat.le_trans hlong (hmost 0 rfl)) (by decide)
      · rw [textOfLength_of_le (Nat.not_lt.1 hlimit)] at ht
        cases ht
    · rintro ⟨hmost, hleast⟩
      have hkept : most.filter (0 < ·) = most := by
        cases most with
        | none => rfl
        | some b => simpa [Option.filter_eq_some_iff, Nat.pos_iff_ne_zero] using hmost
      have hlimit : lengthBetween least most < lengthLimit := lengthBetween_lt hleast
      obtain ⟨t, ht, hlength⟩ := exists_textOfLength hlimit
      refine ⟨t, by rw [hkept, ht], ?_, ?_⟩
      · rw [hlength]
        exact le_lengthBetween h.ordered
      · rw [hlength]
        exact lengthBetween_le
  · constructor
    · rintro ⟨t, hnode, -⟩
      exact absurd hnode (synthesize_ne_of_placeholder hf h.sample _)
    · exact fun h => absurd h.1 hf

end

/-- Bounds on the length of a text and nothing else. -/
def lengthBounds (least most : Option Nat) : Facets :=
  { constraints := some { minLength := least.map .whole, maxLength := most.map .whole } }

theorem hasLengths_lengthBounds {least most : Option Nat} (h : ∀ a ∈ least, ∀ b ∈ most, a ≤ b) :
    (lengthBounds least most).HasLengths least most :=
  ⟨rfl, rfl, rfl, rfl, rfl, rfl, h⟩

theorem synthesize_string_between_wide :
    (∃ t, synthesize {} none (.scalar .string (lengthBounds (some 8) (some 20))) =
        .ok (.scalar .string { lengthBounds (some 8) (some 20) with sample := some (.str t) }) ∧
      (∀ a ∈ some 8, a ≤ t.length) ∧ ∀ b ∈ some 20, t.length ≤ b) ∧
    ∃ t, synthesize {} none (.scalar .string (lengthBounds (some 0) (some 1))) =
        .ok (.scalar .string { lengthBounds (some 0) (some 1) with sample := some (.str t) }) ∧
      (∀ a ∈ some 0, a ≤ t.length) ∧ ∀ b ∈ some 1, t.length ≤ b :=
  ⟨(synthesize_string_between (hasLengths_lengthBounds (by simp)) rfl).2 ⟨rfl, by decide, by decide⟩,
    (synthesize_string_between (hasLengths_lengthBounds (by simp)) rfl).2 ⟨rfl, by decide, by decide⟩⟩

/-- An example for a text that may have no character. -/
theorem synthesize_string_beyond :
    synthesize {} none (.scalar .string (lengthBounds none (some 0))) =
      .ok (.scalar .string { lengthBounds none (some 0) with sample := some (.str "string") }) := by
  have h : (lengthBounds none (some 0)).HasLengths none (some 0) := hasLengths_lengthBounds (by simp)
  exact (h.synthesize_iff rfl rfl "string").2 rfl

end ApiSchema
