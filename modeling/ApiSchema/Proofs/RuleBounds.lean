import ApiSchema.Proofs.RuleFaults

/-!
# Bounds of rules

Eight rules are about the bounds of a field, and of each bound the last of them counts. A rule for one bound sets it if
its parameter is a number, and else leaves it as it is. A rule for both bounds sets them whatever its parameters are:
without a number it takes away what an earlier rule has set (`bounds_taken_away`). So a bound is the last number that is
given for it, unless the last rule about it has none (`bounded_of_interpret`).
-/
namespace ApiSchema

theorem Constraints.eq_empty {c : Constraints} (h : c.isEmpty = true) : c = {} := by
  obtain ⟨minimum, maximum, minLength, maxLength, minItems, maxItems, pattern⟩ := c
  simp only [Constraints.isEmpty, Bool.and_eq_true, Option.isNone_iff_eq_none] at h
  simp [h]

theorem Text.join_ne_empty (sep : String) {d : String} {ds : List String} (h : d ∈ ds) (hd : d ≠ "") :
    Text.join sep ds ≠ "" := by
  induction ds with
  | nil => cases h
  | cons x xs ih =>
    cases xs with
    | nil =>
      rw [List.mem_singleton] at h
      simpa [Text.join, ← h] using hd
    | cons y ys =>
      have hjoin : Text.join sep (x :: y :: ys) = x ++ sep ++ Text.join sep (y :: ys) := String.intercalate_cons_cons
      rw [hjoin]
      rcases List.mem_cons.1 h with rfl | h
      · simp [hd]
      · simp [ih h]

namespace Rule

open Text

variable {s s' : State} {n : Node}

/-! ## Bounds of a node -/

theorem State.format_of_node (h : s.node = .ok n) (hkind : n.kind = .string) : n.facets.format = s.format.map .str := by
  obtain ⟨c, -, -, hfacets⟩ := State.exists_of_node h
  obtain ⟨sentences, hsized, -⟩ := s.exists_sized n.kind
  rw [hfacets, hsized, hkind]
  rfl

/-- The constraints that a node has, maybe none. -/
def constraintsOf (n : Node) : Constraints := n.facets.constraints.getD {}

/-- A node shows a lower and an upper bound: a number as they are, an array and a text as whole numbers, and a file the
upper one in its description. -/
structure Bounded (n : Node) (lower upper : Option Value) : Prop where
  number : n.kind.isNumeric = true → (constraintsOf n).minimum = lower ∧ (constraintsOf n).maximum = upper
  array : n.kind = .array →
    wholeBound lower = .ok (constraintsOf n).minItems ∧ wholeBound upper = .ok (constraintsOf n).maxItems
  text : n.kind = .string → n.facets.format ≠ some (.str "binary") →
    wholeBound lower = .ok (constraintsOf n).minLength ∧ wholeBound upper = .ok (constraintsOf n).maxLength
  file : n.kind = .string → n.facets.format = some (.str "binary") → ∀ most ∈ upper, ∃ sentences : List String,
    sizeSentence most ∈ sentences ∧ n.facets.description = some (.str (join " " sentences))

theorem exists_of_wholeBounds {v w : Option Value} {f : Option Value → Option Value → Constraints} {c : Constraints}
    (h : (wholeBound v >>= fun a => wholeBound w >>= fun b => pure (f a b)) = .ok c) :
    ∃ a b, wholeBound v = .ok a ∧ wholeBound w = .ok b ∧ c = f a b := by
  cases hv : wholeBound v with
  | error e => rw [hv] at h; cases h
  | ok a =>
    cases hw : wholeBound w with
    | error e => rw [hv, hw] at h; cases h
    | ok b =>
      rw [hv, hw] at h
      cases h
      exact ⟨a, b, rfl, rfl, rfl⟩

theorem bounded_of_node (h : s.node = .ok n) : Bounded n s.lower s.upper := by
  obtain ⟨c, hc, -, hfacets⟩ := State.exists_of_node h
  obtain ⟨sentences, hsized, hsize⟩ := s.exists_sized n.kind
  rw [hsized] at hfacets
  have hconstraints : constraintsOf n = c := by
    rw [constraintsOf, hfacets]
    simp only [State.facets]
    split
    · rename_i hempty
      rw [Constraints.eq_empty hempty]
      rfl
    · rfl
  have hformat := State.format_of_node h
  constructor
  · intro hnumeric
    rw [hconstraints]
    cases hk : n.kind with
    | scalar k =>
      rw [hk] at hc hnumeric
      cases k <;> cases hnumeric <;> cases hc <;> exact ⟨rfl, rfl⟩
    | _ => simp [hk, Kind.isNumeric] at hnumeric
  · intro harray
    rw [harray] at hc
    obtain ⟨least, most, hleast, hmost, rfl⟩ := exists_of_wholeBounds hc
    rw [hconstraints]
    exact ⟨hleast, hmost⟩
  · intro hstring hformat'
    have hbinary : ¬ (s.format == some "binary") = true := by
      intro hbinary
      simp [hformat hstring, beq_iff_eq.1 hbinary] at hformat'
    rw [hstring] at hc
    simp only [boundsOf, Kind.string, if_neg hbinary] at hc
    obtain ⟨least, most, hleast, hmost, rfl⟩ := exists_of_wholeBounds hc
    rw [hconstraints]
    exact ⟨hleast, hmost⟩
  · intro hstring hbinary most hmost
    have hbinary : s.format = some "binary" := by simpa [hformat hstring] using hbinary
    have hmem := hsize hstring hbinary most hmost
    have hjoin := join_ne_empty " " hmem (sizeSentence_ne_empty most)
    refine ⟨sentences, hmem, ?_⟩
    rw [hfacets]
    simp [State.facets, hjoin]

/-! ## Bounds of all rules -/

/-- The number of the last rule that gives one for a bound. -/
def lastNumber (bound? : Token → Option (Option Value)) (tokens : List Token) : Option Value :=
  (tokens.filterMap fun t => (bound? t).join).getLast?

/-- Whether the last rule about a bound has no number for it. -/
def isTakenAway (bound? : Token → Option (Option Value)) (tokens : List Token) : Bool :=
  (tokens.filterMap bound?).getLast?.any Option.isNone

/-- The bound that a field ends up with. -/
def boundAfter (bound? : Token → Option (Option Value)) (tokens : List Token) : Option Value :=
  if isTakenAway bound? tokens then none else lastNumber bound? tokens

theorem lastBound_eq (bound? : Token → Option (Option Value)) (tokens : List Token) :
    lastBound bound? tokens = boundAfter bound? tokens := by
  have hnumbers : lastNumber bound? tokens = ((tokens.filterMap bound?).filterMap id).getLast? := by
    rw [List.filterMap_filterMap]
    rfl
  unfold lastBound boundAfter isTakenAway
  rw [hnumbers]
  rcases List.eq_nil_or_concat' (tokens.filterMap bound?) with hnil | ⟨init, last, hlast⟩
  · simp [hnil]
  · cases last <;> simp [hlast]

/-- The rules for one bound. -/
def singleRules : List String := ["min", "gt", "gte", "max", "lt", "lte"]

/-- A rule for one bound without a number sets none. -/
theorem bounds?_of_single {t : Token} (hname : t.name ∈ singleRules) (hnumber : t.first?.bind number? = none) :
    t.lower? = none ∧ t.upper? = none := by
  have hsize : "size" ∉ singleRules := by decide
  have hbetween : "between" ∉ singleRules := by decide
  constructor
  · unfold Token.lower?
    split
    case h_4 heq => exact absurd (heq ▸ hname) hsize
    case h_5 heq _ => exact absurd (heq ▸ hname) hbetween
    all_goals simp [hnumber]
  · unfold Token.upper?
    split
    case h_4 heq => exact absurd (heq ▸ hname) hsize
    case h_5 heq _ => exact absurd (heq ▸ hname) hbetween
    all_goals simp [hnumber]

/-- Of each bound the last number counts that a rule gives, unless the last rule about the bound has none. A rule for
one bound without a number leaves both as they are. -/
theorem bounded_of_interpret {σ : Type} (i : Interpreter (ExceptT Problem (StateM σ))) :
    (∀ (rules : Raw) (l : σ) (n : Node), result (interpret i rules) l = .ok n →
      Bounded n (boundAfter Token.lower? (parse rules)) (boundAfter Token.upper? (parse rules))) ∧
    (∀ (s s' : State) (t : Token) (l : σ), t.name ∈ singleRules → t.first?.bind number? = none →
      result (apply i s t) l = .ok s' → s'.lower = s.lower ∧ s'.upper = s.upper) := by
  obtain ⟨table, patterns, enums⟩ := i
  constructor
  · intro rules l n hn
    rw [interpret, interpretTokens] at hn
    obtain ⟨s, hs, hn⟩ := exists_of_result_bind hn
    have hterms := unlisted_foldlM hs
    have hlower : s.lower = lastBound Token.lower? (parse rules) :=
      (congrArg Terms.lower hterms).trans (Terms.lower_foldl _ _)
    have hupper : s.upper = lastBound Token.upper? (parse rules) :=
      (congrArg Terms.upper hterms).trans (Terms.upper_foldl _ _)
    rw [← lastBound_eq, ← lastBound_eq, ← hlower, ← hupper]
    exact bounded_of_node hn
  · intro s s' t l hname hnumber hs
    have hterms := unlisted_apply hs
    have hlower : s'.lower = t.lower?.getD s.lower := congrArg Terms.lower hterms
    have hupper : s'.upper = t.upper?.getD s.upper := congrArg Terms.upper hterms
    obtain ⟨hnoLower, hnoUpper⟩ := bounds?_of_single hname hnumber
    rw [hlower, hupper, hnoLower, hnoUpper]
    exact ⟨rfl, rfl⟩

/-- Rules of all kinds about bounds, some of them without a number. -/
def boundingRules : Raw := .line "size:4|integer|max:9|gt:start|between:2,7|lte|min:x|max:8|between:5"

/-- How rules are interpreted when nothing can be looked up. -/
def nodeOf (rules : Raw) : Except Problem Node := result (interpret (m := Over Unit) {} rules) ()

theorem bounded_of_interpret_boundingRules :
    (∃ n, nodeOf boundingRules = .ok n ∧ (constraintsOf n).minimum.map Value.text = some "2" ∧
      (constraintsOf n).maximum.map Value.text = some "8") ∧
    ∃ s',
      result (apply (m := ExceptT Problem (StateM Unit)) {} { lower := some (.int 2) } ⟨"gt", ["start"]⟩) () = .ok s' ∧
      s'.lower = some (.int 2) ∧ s'.upper = none := by
  obtain ⟨hbounds, hstep⟩ := bounded_of_interpret ({} : Interpreter (ExceptT Problem (StateM Unit)))
  constructor
  · have hkind : (nodeOf boundingRules).toOption.map Node.kind = some .integer := by decide +kernel
    cases hn : nodeOf boundingRules with
    | error p => simp [hn, Except.toOption] at hkind
    | ok n =>
      have hkind : n.kind = .integer := by simpa [hn, Except.toOption] using hkind
      obtain ⟨hleast, hmost⟩ := (hbounds boundingRules () n hn).number (by rw [hkind]; rfl)
      have hvalues : ((boundAfter Token.lower? (parse boundingRules)).map Value.text,
          (boundAfter Token.upper? (parse boundingRules)).map Value.text) = (some "2", some "8") := by decide +kernel
      refine ⟨n, rfl, ?_⟩
      rw [hleast, hmost]
      exact Prod.mk.inj hvalues
  · exact ⟨_, rfl, hstep { lower := some (.int 2) } _ ⟨"gt", ["start"]⟩ () (by decide) (by decide +kernel) rfl⟩

/-- The bounds of a number with the rules of a text, as texts. -/
def boundsShown (rules : String) : Option (Option String × Option String) :=
  (nodeOf (.line rules)).toOption.map fun n =>
    ((constraintsOf n).minimum.map Value.text, (constraintsOf n).maximum.map Value.text)

/-- The last numbers that are given for the bounds in the rules of a text. -/
def numbersGiven (rules : String) : Option String × Option String :=
  ((lastNumber Token.lower? (parse (.line rules))).map Value.text,
    (lastNumber Token.upper? (parse (.line rules))).map Value.text)

/-- A size that is the name of another field takes both bounds away, and so does an end of a range that is no number
with its own. -/
theorem bounds_taken_away :
    (boundsShown "integer|min:3|size:other" = some (none, none) ∧
        numbersGiven "integer|min:3|size:other" = (some "3", none)) ∧
      (boundsShown "integer|between:1,5|between:2,top" = some (some "2", none) ∧
        numbersGiven "integer|between:1,5|between:2,top" = (some "2", some "5")) := by
  decide +kernel

end Rule
end ApiSchema
