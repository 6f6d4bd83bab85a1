import ApiSchema.Proofs.ExampleFilling
import ApiSchema.Proofs.RulePatterns

/-!
# Examples are of their kind and match their pattern

A format and the name of a field give an example only if it is of the kind (`isOfKind_iff`). Bounds and lengths give one
by their way of computing it: for a number with one bound it is the bound itself, which is a number then
(`boundExample_number`). The table of kinds has an example for every kind (`kindExamples_admit`).

A value that does not match the pattern is not kept (`Checked`): other kinds than strings have no example then, and
strings have one that was made for the pattern and matches it.
-/
namespace ApiSchema

variable {tables : ExampleTables} {field : Option String} {s : Scalar} {f : Facets} {v : Option Value}
  {w : Value} {t : String} {kind : Kind} {r pattern : Option Value}

/-- The values that a scalar describes. Truth values are no numbers. -/
inductive Scalar.Admits : Scalar → Value → Prop
  | text (t : String) : Admits .string (.str t)
  | whole (n : Int) : Admits .integer (.int n)
  | wholeNumber (n : Int) : Admits .number (.int n)
  | real (x : Double) : Admits .number (.float x)
  | truth (b : Bool) : Admits .boolean (.bool b)

/-- The bounds of a number are numbers, as far as there are any. -/
structure Constraints.HasNumbers (c : Constraints) : Prop where
  minimum : ∀ w ∈ c.minimum, Scalar.number.Admits w
  maximum : ∀ w ∈ c.maximum, Scalar.number.Admits w

theorem isOfKind_iff : w.isOfKind (.scalar s) = true ↔ s.Admits w := by
  constructor
  · intro h
    cases s with
    | string =>
      cases w with
      | str t => exact .text t
      | _ => cases h
    | integer =>
      cases w with
      | int n => exact .whole n
      | _ => cases h
    | number =>
      cases w with
      | int n => exact .wholeNumber n
      | float x => exact .real x
      | _ => cases h
    | boolean =>
      cases w with
      | bool b => exact .truth b
      | _ => cases h
  · rintro (_ | _ | _ | _ | _) <;> rfl

theorem Scalar.Admits.isNull_eq (h : s.Admits w) : w.isNull = false := by
  cases h <;> rfl

theorem something_eq (h : ∀ w ∈ v, s.Admits w) : something v = v := by
  cases v with
  | none => rfl
  | some w => simp [something, (h w rfl).isNull_eq]

/-! ## Where examples are taken from -/

theorem formatExample_admits {format : Option Value} (h : formatExample tables (.scalar s) format = .ok v) :
    ∀ w ∈ v, s.Admits w := by
  unfold formatExample at h
  intro w hw
  repeat' split at h
  all_goals cases h
  · cases hw
  · exact isOfKind_iff.1 (Option.mem_filter_iff.1 hw).2
  · cases hw

theorem nameExample_admits : ∀ w ∈ nameExample tables (.scalar s) field, s.Admits w := by
  intro w hw
  unfold nameExample at hw
  obtain ⟨name, -, hw⟩ := Option.bind_eq_some_iff.1 hw
  split at hw
  · cases hw
  · obtain ⟨hint, -, hw⟩ := Option.bind_eq_some_iff.1 hw
    split at hw
    · cases hw
      exact isOfKind_iff.1 ‹_›
    · cases hw

theorem whole_admits {x : Except Fault Int} (h : (do return some (.int (← x))) = Except.ok v) :
    ∀ w ∈ v, Scalar.integer.Admits w := by
  obtain ⟨n, -, h⟩ := ok_of_bind h
  cases h
  rintro w ⟨⟩
  exact .whole n

/-- Whatever its bounds are, the example of an integer is rounded or cut down. -/
theorem boundExample_integer {low high : Option Value} (h : boundExample .integer low high = .ok v) :
    ∀ w ∈ v, Scalar.integer.Admits w := by
  unfold boundExample at h
  split at h
  · obtain ⟨x, -, h⟩ := ok_of_bind h
    exact whole_admits h
  · exact whole_admits h
  · exact whole_admits h
  · cases h
    rintro w ⟨⟩

/-- The example of a number with one bound is the bound. -/
theorem boundExample_number {low high : Option Value} (hlow : ∀ w ∈ low, Scalar.number.Admits w)
    (hhigh : ∀ w ∈ high, Scalar.number.Admits w) (h : boundExample .number low high = .ok v) :
    ∀ w ∈ v, Scalar.number.Admits w := by
  unfold boundExample at h
  split at h
  · obtain ⟨x, -, h⟩ := ok_of_bind h
    cases h
    rintro w ⟨⟩
    exact .real _
  · cases h
    exact hlow
  · cases h
    exact hhigh
  · cases h
    rintro w ⟨⟩

theorem constraintExample_admits {c : Constraints} (hbounds : c.HasNumbers)
    (h : constraintExample (.scalar s) c = .ok v) : ∀ w ∈ v, s.Admits w := by
  unfold constraintExample at h
  cases s with
  | integer => exact boundExample_integer h
  | number => exact boundExample_number hbounds.minimum hbounds.maximum h
  | string =>
    rw [if_neg (by decide)] at h
    split at h
    · obtain ⟨n, -, h⟩ := ok_of_bind h
      obtain ⟨text, -, h⟩ := ok_of_bind h
      cases h
      rintro w ⟨⟩
      exact .text _
    · cases h
      rintro w ⟨⟩
  | boolean =>
    cases h
    rintro w ⟨⟩

theorem kindExamples_admit (s : Scalar) : ∃ w, kindExamples.lookup (.scalar s) = some w ∧ s.Admits w := by
  cases s with
  | string => exact ⟨_, rfl, .text _⟩
  | integer => exact ⟨_, rfl, .whole _⟩
  | number => exact ⟨_, rfl, .real _⟩
  | boolean => exact ⟨_, rfl, .truth _⟩

theorem same_str_iff : Value.same w (.str t) = true ↔ w = .str t := by
  cases w <;> simp [Value.same, Value.sameNumber, Value.numeric?]

/-- A value that the scalar admits, and always one but for binary contents. -/
theorem candidate_admits (henum : f.enumValues.getD [] = []) (hbounds : ∀ c ∈ f.constraints, c.HasNumbers)
    (hkinds : ∀ s, ∃ w, tables.kinds.lookup (.scalar s) = some w ∧ s.Admits w)
    (h : candidate tables (.scalar s) f field = .ok v) :
    (∀ w ∈ v, s.Admits w) ∧ (v = none → f.format = some (.str "binary")) := by
  have hdefault : (∀ w ∈ tables.kinds.lookup (.scalar s), s.Admits w) ∧
      (tables.kinds.lookup (.scalar s) = none → f.format = some (.str "binary")) := by
    obtain ⟨w, hw, hadmits⟩ := hkinds s
    rw [hw]
    refine ⟨?_, nofun⟩
    rintro _ ⟨⟩
    exact hadmits
  unfold candidate at h
  split at h
  · rename_i hvs
    rw [hvs] at henum
    cases henum
  · obtain ⟨given, hgiven, h⟩ := ok_of_bind h
    cases given with
    | some w =>
      cases h
      exact ⟨formatExample_admits hgiven, nofun⟩
    | none =>
      dsimp only at h
      split at h
      · rename_i hbinary
        cases h
        refine ⟨by rintro w ⟨⟩, fun _ => ?_⟩
        obtain ⟨format, hformat, hsame⟩ := (Option.any_eq_true _ _).1 hbinary
        rw [hformat, same_str_iff.1 hsame]
      · cases hname : nameExample tables (.scalar s) field with
        | some w =>
          rw [hname] at h
          cases h
          exact ⟨hname ▸ nameExample_admits, nofun⟩
        | none =>
          rw [hname] at h
          cases hc : f.constraints with
          | none =>
            rw [hc] at h
            cases h
            exact hdefault
          | some c =>
            rw [hc] at h
            obtain ⟨bounded, hbounded, h⟩ := ok_of_bind h
            cases bounded with
            | some w =>
              cases h
              exact ⟨constraintExample_admits (hbounds c hc) hbounded, nofun⟩
            | none =>
              cases h
              exact hdefault

/-! ## Patterns -/

/-- How the example of a scalar comes out of a value for it, under the pattern. -/
inductive Checked (tables : ExampleTables) (kind : Kind) (pattern : Option Value) : Option Value → Option Value → Prop
  | free (h : isSet pattern = false) (v : Option Value) : Checked tables kind pattern v v
  | without : Checked tables kind pattern none none
  | fitting {p : String} (hp : pattern = some (.str p)) {v : Value}
    (h : Pattern.fits (Pattern.clean p) v.text tables.patterns.characters = true) :
    Checked tables kind pattern (some v) (some v)
  | dropped (hset : isSet pattern = true) (hk : kind ≠ .string) (v : Value) : Checked tables kind pattern (some v) none
  | replaced (hset : isSet pattern = true) {p : String} (hp : pattern = some (.str p)) (hk : kind = .string) (v : Value)
    {t : Option String} (h : Pattern.exampleFor tables.patterns p = .ok t) :
    Checked tables kind pattern (some v) (t.map .str)

theorem str_of_patternText {p : Value} (h : patternText p = .ok t) : p = .str t := by
  unfold patternText at h
  split at h <;> cases h
  rfl

theorem fits_of_matchesPattern {characters : Pattern.Characters} {p : String}
    (h : matchesPattern characters p w = .ok true) : Pattern.fits (Pattern.clean p) w.text characters = true := by
  obtain ⟨text, htext, h⟩ := ok_of_bind h
  rw [Value.text_of_spell htext]
  split at h
  · rename_i q hq
    simp [Pattern.fits, hq, h, Except.toOption]
  · cases h
  · cases h

theorem valueFor_checked (h : valueFor tables kind f field = .ok r) :
    ∃ v, candidate tables kind f field = .ok v ∧
      Checked tables kind (f.constraints.bind (·.pattern)) (something v) r := by
  unfold valueFor at h
  obtain ⟨v, hv, h⟩ := ok_of_bind h
  refine ⟨v, ok_of_mapError hv, ?_⟩
  dsimp only at h
  split at h
  · rename_i w p hw hp
    rw [hw, hp]
    split at h
    · rename_i hfree
      cases h
      exact .free (by simpa [isSet] using hfree) _
    · rename_i hfree
      have hset : isSet (some p) = true := by simpa [isSet] using hfree
      obtain ⟨t, ht, hchecked⟩ := ok_of_bind h
      cases str_of_patternText (ok_of_mapError ht)
      obtain ⟨b, hb, h⟩ := ok_of_bind hchecked
      split at h
      · rename_i hb'
        cases h
        exact .fitting rfl (fits_of_matchesPattern (ok_of_mapError (hb' ▸ hb)))
      · split at h
        · rename_i hkind
          cases h
          exact .dropped hset (by simpa using hkind) w
        · rename_i hkind
          obtain ⟨found, hfound, h⟩ := ok_of_bind h
          cases h
          exact .replaced hset rfl (by simpa using hkind) w (ok_of_mapError hfound)
  · rename_i hnone
    cases h
    cases hw : something v with
    | none => exact .without
    | some w =>
      cases hp : f.constraints.bind (·.pattern) with
      | none => exact .free rfl _
      | some p => exact absurd hp (hnone w p hw)

theorem Checked.admits (h : Checked tables (.scalar s) pattern v r)
    (hv : ∀ w ∈ v, s.Admits w) : ∀ w ∈ r, s.Admits w := by
  cases h with
  | free _ _ | without | fitting _ _ => exact hv
  | dropped _ _ _ => rintro w ⟨⟩
  | replaced _ _ hk _ _ =>
    cases hk
    intro w hw
    obtain ⟨t, -, rfl⟩ := Option.map_eq_some_iff.1 hw
    exact .text t

theorem Checked.fits (h : Checked tables kind pattern v r) {p : String}
    (hp : pattern = some (.str p)) (hne : p ≠ "") :
    ∀ w ∈ r, Pattern.fits (Pattern.clean p) w.text tables.patterns.characters = true := by
  cases h with
  | free hfree _ => simp [hp, isSet, Value.truthy, hne] at hfree
  | without => rintro w ⟨⟩
  | fitting hp' hfits =>
    cases hp.symm.trans hp'
    rintro w ⟨⟩
    exact hfits
  | dropped _ _ _ => rintro w ⟨⟩
  | replaced _ hp' _ _ hfound =>
    cases hp.symm.trans hp'
    intro w hw
    obtain ⟨t, ht, rfl⟩ := Option.map_eq_some_iff.1 hw
    exact Pattern.fits_of_exampleFor (ht ▸ hfound)

theorem Checked.eq_none_or_isSet (h : Checked tables kind pattern v r)
    (hr : r = none) : v = none ∨ isSet pattern = true := by
  cases h with
  | free _ _ => exact .inl hr
  | without => exact .inl rfl
  | fitting _ _ => cases hr
  | dropped hset _ _ | replaced hset _ _ _ _ => exact .inr hset

/-- The example that is found for a scalar is of its kind and matches its pattern without delimiters. Without an example
stay only placeholders, binary contents, and scalars with a pattern. -/
theorem synthesize_scalar_admits {m : Node} (hsample : f.sample = none) (henum : f.enumValues.getD [] = [])
    (hbounds : ∀ c ∈ f.constraints, c.HasNumbers) (h : synthesize {} field (.scalar s f) = .ok m) :
    (∀ w ∈ m.facets.sample, s.Admits w ∧
      ∀ p, f.constraints.bind (·.pattern) = some (.str p) → p ≠ "" → Pattern.fits (Pattern.clean p) w.text = true) ∧
    (m.facets.sample = none →
      f.circularRef.isSome = true ∨ f.format = some (.str "binary") ∨
        isSet (f.constraints.bind (·.pattern)) = true) := by
  cases hf : f.circularRef with
  | some c =>
    have hplaceholder : (Node.scalar s f).isPlaceholder = true := Option.isSome_of_mem hf
    cases (synthesize_placeholder hplaceholder).symm.trans h
    exact ⟨fun w hw => (nomatch hsample.symm.trans hw), fun _ => .inl rfl⟩
  | none =>
    obtain ⟨r, hr, rfl⟩ := (synthesize_scalar_iff hf hsample).1 h
    obtain ⟨v, hv, hchecked⟩ := valueFor_checked hr
    obtain ⟨hadmits, hbinary⟩ := candidate_admits henum hbounds kindExamples_admit hv
    rw [something_eq hadmits] at hchecked
    refine ⟨fun w hw => ⟨hchecked.admits hadmits w hw, fun p hp hne => hchecked.fits hp hne w hw⟩, fun hnone => ?_⟩
    exact .inr ((hchecked.eq_none_or_isSet hnone).imp_left hbinary)

/-- A text with a pattern, for a name whose example does not match it. -/
def codeFacets : Facets := { constraints := some { pattern := some (.str "/^[a-z]\x7b3\x7d-\\d$/") } }

/-- A number between bounds, with a pattern. -/
def ratioFacets : Facets :=
  { constraints := some { minimum := some (.int 1), maximum := some (.int 2), pattern := some (.str "/^\\d\\.\\d$/") } }

theorem sample_of_text {x : Attempt Node}
    (h : (x.toOption.bind (·.facets.sample.map Value.text) == some t) = true) :
    ∃ m w, x = .ok m ∧ w ∈ m.facets.sample ∧ w.text = t := by
  obtain ⟨m, hm, h⟩ := Option.bind_eq_some_iff.1 (eq_of_beq h)
  obtain ⟨w, hw, ht⟩ := Option.map_eq_some_iff.1 h
  exact ⟨m, w, ok_of_toOption hm, hw, ht⟩

theorem synthesize_scalar_admits_email_and_ratio :
    (∃ m w, synthesize {} (some "email") (.scalar .string codeFacets) = .ok m ∧ w ∈ m.facets.sample ∧ w.text = "abc-1" ∧
      Scalar.string.Admits w ∧ Pattern.fits (Pattern.clean "/^[a-z]\x7b3\x7d-\\d$/") w.text = true) ∧
    ∃ m w, synthesize {} none (.scalar .number ratioFacets) = .ok m ∧ w ∈ m.facets.sample ∧ w.text = "1.5" ∧
      Scalar.number.Admits w ∧ Pattern.fits (Pattern.clean "/^\\d\\.\\d$/") w.text = true := by
  constructor
  · obtain ⟨m, w, hm, hw, ht⟩ : ∃ m w, synthesize {} (some "email") (.scalar .string codeFacets) = .ok m ∧
        w ∈ m.facets.sample ∧ w.text = "abc-1" := sample_of_text (by decide +kernel)
    have hbounds : ∀ c ∈ codeFacets.constraints, c.HasNumbers := by
      rintro c ⟨⟩
      exact ⟨by rintro w ⟨⟩, by rintro w ⟨⟩⟩
    obtain ⟨hadmits, hfits⟩ := (synthesize_scalar_admits rfl rfl hbounds hm).1 w hw
    exact ⟨m, w, hm, hw, ht, hadmits, hfits _ rfl (by decide)⟩
  · obtain ⟨m, w, hm, hw, ht⟩ : ∃ m w, synthesize {} none (.scalar .number ratioFacets) = .ok m ∧
        w ∈ m.facets.sample ∧ w.text = "1.5" := sample_of_text (by decide +kernel)
    have hbounds : ∀ c ∈ ratioFacets.constraints, c.HasNumbers := by
      rintro c ⟨⟩
      exact ⟨by rintro w ⟨⟩; exact .wholeNumber 1, by rintro w ⟨⟩; exact .wholeNumber 2⟩
    obtain ⟨hadmits, hfits⟩ := (synthesize_scalar_admits rfl rfl hbounds hm).1 w hw
    exact ⟨m, w, hm, hw, ht, hadmits, hfits _ rfl (by decide)⟩

end ApiSchema
