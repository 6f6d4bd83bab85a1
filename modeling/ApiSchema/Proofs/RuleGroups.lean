import ApiSchema.Proofs.Reads

/-!
# Groups of rules

The rules of a field fall into groups that do not touch each other: whether the field must be there, when it must, its
bounds, its choices, and its shape. What the groups but the last one say is in the terms of a field (`Terms`), where
each part is read off from the rules of one group (`Terms.after`). The rules of the last group leave the terms alone and
do not look at them (`State.told_withTerms`), so the rules of a field can be read group by group (`foldlM_apply_eq`).
Therefore only the order inside each group counts (`interpret_eq_of_groups`).
-/
namespace ApiSchema.Rule

open Text

/-! ## Groups -/

/-- What a rule is about. -/
inductive Group where
  /-- Whether the field must be there, may be null, or is outdated. -/
  | flag
  /-- When the field must be there. -/
  | condition
  | bound
  | choice
  /-- An enumeration that is looked up. -/
  | enumeration
  /-- Kind, format, pattern and description, or nothing. -/
  | shape
deriving DecidableEq

def flagRules : List String := ["required", "nullable", "deprecated"]

def boundRules : List String := ["min", "max", "gt", "gte", "lt", "lte", "between", "size"]

def Token.group (t : Token) : Group :=
  if t.name ∈ flagRules then .flag
  else if t.name ∈ conditionalRules then .condition
  else if t.name ∈ boundRules then .bound
  else if t.name = "in" then .choice
  else if t.name = "enum" then .enumeration
  else .shape

/-- Whether a rule says something of the shape of a field. -/
def Token.isShape (t : Token) : Bool := t.group = .shape || t.group = .enumeration

theorem Token.isShape_iff {t : Token} :
    t.isShape = true ↔ t.name ∉ flagRules ∧ t.name ∉ conditionalRules ∧ t.name ∉ boundRules ∧ t.name ≠ "in" := by
  unfold isShape group
  repeat' split
  all_goals simp_all

/-! ## Terms -/

/-- What is asked of a field beside its shape. -/
@[ext]
structure Terms where
  required : Bool := false
  nullable : Bool := false
  deprecated : Bool := false
  enumValues : Option (List Value) := none
  lower : Option Value := none
  upper : Option Value := none
  requirements : List Requirement := []

namespace State

def terms (s : State) : Terms where
  required := s.required
  nullable := s.nullable
  deprecated := s.deprecated
  enumValues := s.enumValues
  lower := s.lower
  upper := s.upper
  requirements := s.requirements

/-- The state with other terms and the same shape. -/
def withTerms (s : State) (a : Terms) : State :=
  { s with
    required := a.required
    nullable := a.nullable
    deprecated := a.deprecated
    enumValues := a.enumValues
    lower := a.lower
    upper := a.upper
    requirements := a.requirements }

variable {s : State} {a b : Terms}

@[simp]
theorem withTerms_terms (s : State) : s.withTerms s.terms = s := rfl

@[simp]
theorem terms_withTerms : (s.withTerms a).terms = a := rfl

@[simp]
theorem withTerms_withTerms : (s.withTerms a).withTerms b = s.withTerms b := rfl

end State

namespace Token

/-- The lower bound that a rule sets; a text that is no number can take a bound away. -/
def lower? (t : Token) : Option (Option Value) :=
  match t.name, t.params with
  | "min", _ | "gt", _ | "gte", _ => (t.first?.bind number?).map some
  | "size", _ => some (t.first?.bind number?)
  | "between", low :: _ :: _ => some (number? low)
  | _, _ => none

/-- The upper bound that a rule sets. -/
def upper? (t : Token) : Option (Option Value) :=
  match t.name, t.params with
  | "max", _ | "lt", _ | "lte", _ => (t.first?.bind number?).map some
  | "size", _ => some (t.first?.bind number?)
  | "between", _ :: high :: _ => some (number? high)
  | _, _ => none

/-- The values that a rule allows. -/
def choices? (t : Token) : Option (List Value) := if t.name = "in" then some (t.params.map .str) else none

/-- Whether a rule compares another field with values, which come after it. -/
def isValued (t : Token) : Bool := t.name = "required_if" || t.name = "required_unless"

/-- The requirement of a rule with parameters. -/
def requirement (t : Token) : Requirement where
  kind := t.name
  fields := if t.isValued then t.params.take 1 else t.params
  value := if t.isValued && !(join ", " t.params.tail).isEmpty then some (.str (join ", " t.params.tail)) else none
  description := conditionText t.name t.params

/-- Whether a rule requires the field under a condition on other fields that it names. -/
def isRequirement (t : Token) : Bool := t.name ∈ conditionalRules && !t.params.isEmpty

end Token

/-- The terms after a rule. -/
def Terms.after (a : Terms) (t : Token) : Terms where
  required := a.required || t.name = "required"
  nullable := a.nullable || t.name = "nullable"
  deprecated := a.deprecated || t.name = "deprecated"
  enumValues := t.choices?.or a.enumValues
  lower := t.lower?.getD a.lower
  upper := t.upper?.getD a.upper
  requirements := a.requirements ++ if t.isRequirement then [t.requirement] else []

variable {patterns : Pattern.Lexicon} {s s' : State} {t : Token} {a : Terms}

namespace Token

theorem lower?_eq_none (h : t.name ∉ boundRules) : t.lower? = none := by
  unfold lower?
  split
  all_goals first | rfl | exact absurd (by simp_all [boundRules]) h

theorem upper?_eq_none (h : t.name ∉ boundRules) : t.upper? = none := by
  unfold upper?
  split
  all_goals first | rfl | exact absurd (by simp_all [boundRules]) h

theorem choices?_eq_none (h : t.name ≠ "in") : t.choices? = none := if_neg h

theorem isRequirement_eq_false (h : t.name ∉ conditionalRules) : t.isRequirement = false := by
  simp [isRequirement, h]

end Token

/-! ## Rules about the terms -/

namespace Terms

theorem after_flag (h : t.name ∈ flagRules) : a.after t = { a with
    required := a.required || t.name = "required"
    nullable := a.nullable || t.name = "nullable"
    deprecated := a.deprecated || t.name = "deprecated" } := by
  have hother : ∀ name ∈ flagRules, name ∉ boundRules ∧ name ≠ "in" ∧ name ∉ conditionalRules := by decide
  obtain ⟨hbound, hin, hcondition⟩ := hother _ h
  simp [after, Token.lower?_eq_none hbound, Token.upper?_eq_none hbound, Token.choices?_eq_none hin,
    Token.isRequirement_eq_false hcondition]

theorem after_condition (h : t.name ∈ conditionalRules) : a.after t = { a with
    requirements := a.requirements ++ if t.params.isEmpty then [] else [t.requirement] } := by
  have hother : ∀ name ∈ conditionalRules, name ∉ boundRules ∧ name ≠ "in" ∧ name ≠ "required" ∧ name ≠ "nullable" ∧
      name ≠ "deprecated" := by decide
  obtain ⟨hbound, hin, hrequired, hnullable, hdeprecated⟩ := hother _ h
  cases hparams : t.params.isEmpty <;>
  simp [after, Token.lower?_eq_none hbound, Token.upper?_eq_none hbound, Token.choices?_eq_none hin,
    Token.isRequirement, h, hparams, hrequired, hnullable, hdeprecated]

theorem after_bound (h : t.name ∈ boundRules) : a.after t = { a with
    lower := t.lower?.getD a.lower
    upper := t.upper?.getD a.upper } := by
  have hother : ∀ name ∈ boundRules, name ≠ "in" ∧ name ∉ conditionalRules ∧ name ≠ "required" ∧ name ≠ "nullable" ∧
      name ≠ "deprecated" := by decide
  obtain ⟨hin, hcondition, hrequired, hnullable, hdeprecated⟩ := hother _ h
  simp [after, Token.choices?_eq_none hin, Token.isRequirement_eq_false hcondition, hrequired, hnullable, hdeprecated]

theorem after_choice (h : t.name = "in") : a.after t = { a with enumValues := some (t.params.map .str) } := by
  have hbound : t.name ∉ boundRules := by simp [h, boundRules]
  have hcondition : t.name ∉ conditionalRules := by simp [h, conditionalRules]
  simp [after, Token.lower?_eq_none hbound, Token.upper?_eq_none hbound, Token.choices?,
    Token.isRequirement_eq_false hcondition, h]

theorem after_shape (h : t.isShape = true) : a.after t = a := by
  obtain ⟨hflag, hcondition, hbound, hin⟩ := Token.isShape_iff.1 h
  simp only [flagRules, List.mem_cons, List.not_mem_nil, or_false, not_or] at hflag
  simp [after, Token.lower?_eq_none hbound, Token.upper?_eq_none hbound, Token.choices?_eq_none hin,
    Token.isRequirement_eq_false hcondition, hflag]

end Terms

theorem applyPlain_flag (h : t.name ∈ flagRules) :
    applyPlain {} patterns s t = .ok (s.withTerms (s.terms.after t)) := by
  rw [Terms.after_flag h]
  obtain ⟨name, params⟩ := t
  simp only [flagRules, List.mem_cons, List.not_mem_nil, or_false] at h
  rcases h with rfl | rfl | rfl
  all_goals
    simp only [applyPlain, State.withTerms, State.terms, String.reduceEq, decide_true, decide_false, Bool.or_true,
      Bool.or_false]
    rfl

theorem withRequirement_eq (s : State) (t : Token) :
    withRequirement s t =
      { s with requirements := s.requirements ++ if t.params.isEmpty then [] else [t.requirement] } := by
  unfold withRequirement
  split
  · rename_i hparams
    simp [hparams]
  · rename_i first rest hparams
    by_cases hif : t.name = "required_if" <;> by_cases hunless : t.name = "required_unless" <;>
      simp [Token.requirement, Token.isValued, hparams, hif, hunless]

theorem applyPlain_condition (h : t.name ∈ conditionalRules) :
    applyPlain {} patterns s t = .ok (s.withTerms (s.terms.after t)) := by
  rw [Terms.after_condition h]
  obtain ⟨name, params⟩ := t
  have hplain : applyPlain {} patterns s ⟨name, params⟩ = .ok (withRequirement s ⟨name, params⟩) := by
    simp only [conditionalRules, List.mem_cons, List.not_mem_nil, or_false] at h
    rcases h with rfl | rfl | rfl | rfl | rfl | rfl <;> rfl
  rw [hplain, withRequirement_eq]
  rfl

theorem applyPlain_bound (h : t.name ∈ boundRules) :
    applyPlain {} patterns s t = .ok (s.withTerms (s.terms.after t)) := by
  rw [Terms.after_bound h]
  obtain ⟨name, params⟩ := t
  simp only [boundRules, List.mem_cons, List.not_mem_nil, or_false] at h
  have hor : ∀ v w : Option Value, (v <|> w) = (v.map some).getD w := by
    rintro (_ | _) w <;> rfl
  rcases h with rfl | rfl | rfl | rfl | rfl | rfl | rfl | rfl
  case inr.inr.inr.inr.inr.inr.inl =>
    rcases params with _ | ⟨low, _ | ⟨high, rest⟩⟩ <;> rfl
  all_goals
    simp only [applyPlain, hor]
    rfl

theorem applyPlain_choice (h : t.name = "in") : applyPlain {} patterns s t = .ok (s.withTerms (s.terms.after t)) := by
  rw [Terms.after_choice h]
  obtain ⟨name, params⟩ := t
  subst h
  rfl

/-- A rule about the terms changes what it is about, and never fails. -/
theorem applyPlain_terms (h : t.isShape = false) :
    applyPlain {} patterns s t = .ok (s.withTerms (s.terms.after t)) := by
  by_cases hflag : t.name ∈ flagRules
  · exact applyPlain_flag hflag
  by_cases hcondition : t.name ∈ conditionalRules
  · exact applyPlain_condition hcondition
  by_cases hbound : t.name ∈ boundRules
  · exact applyPlain_bound hbound
  by_cases hin : t.name = "in"
  · exact applyPlain_choice hin
  · simp [Token.isShape_iff.2 ⟨hflag, hcondition, hbound, hin⟩] at h

/-! ## Rules about the shape -/

/-- What a rule says about the shape of a field. -/
structure Saying where
  kind : Option Kind := none
  format : Option String := none
  pattern : Option String := none
  sample : Option String := none
  description : String := ""

/-- What a rule of the table says, but for its description. -/
def Effect.plain (e : Effect) : Saying where
  kind := e.kind
  format := e.format
  pattern := e.pattern.filter (!·.isEmpty)

/-- What a rule of the table says. -/
def Effect.saying (e : Effect) (params : List String) : Except Fault Saying :=
  (e.description.filter (!·.isEmpty)).elim (pure e.plain) fun d => do
    return { e.plain with description := ← fill d "params" (join ", " params) }

def Token.tableSaying (t : Token) (table : Table := {}) : Except Fault Saying :=
  match table.types.get? t.name with
  | some e => e.saying t.params
  | none => .ok {}

/-- What a rule says about the shape of a field if no enumeration can be looked up. -/
def Token.saying (patterns : Pattern.Lexicon) (t : Token) : Except Fault Saying :=
  match t.name with
  | "sometimes" => .ok { description := "Optional field that is validated only when present." }
  | "enum" => .ok { description := enumSentence }
  | "regex" =>
    match given? t with
    | some raw => do
      let pattern := Pattern.clean raw
      return {
        pattern, sample := ← Pattern.exampleFor patterns pattern,
        description := Pattern.describe patterns.known pattern }
    | none => .ok {}
  | "date_format" =>
    let format := t.first?.getD ""
    .ok {
      kind := some .string
      format := some (if timeMarkers.any (Text.contains format) then "date-time" else "date")
      description := "Must match the date format " ++ format ++ "." }
  | "digits" =>
    match given? t with
    | some n => .ok {
        kind := some .string
        pattern := some ("^\\d\x7b" ++ n ++ "\x7d$")
        description := "Must be exactly " ++ n ++ " digits." }
    | none => .ok {}
  | "digits_between" =>
    match t.params with
    | low :: high :: _ => .ok {
        kind := some .string
        pattern := some ("^\\d\x7b" ++ low ++ "," ++ high ++ "\x7d$")
        description := "Must be between " ++ low ++ " and " ++ high ++ " digits." }
    | _ => .ok {}
  | _ => t.tableSaying

/-- The state after something is said about the shape. -/
def State.told (s : State) (x : Saying) : State :=
  let s := s.withKind x.kind x.format
  State.describe { s with pattern := x.pattern.or s.pattern, sample := x.sample.or s.sample } x.description

@[simp]
theorem State.told_nothing (s : State) : s.told {} = s := by
  simp [told, withKind, describe]

theorem State.describe_withSample (s : State) (sample : Option String) (d : String) :
    State.describe { s with sample } d = { s.describe d with sample } := by
  unfold describe
  split <;> rfl

theorem State.told_sentence (s : State) (d : String) : s.told { description := d } = s.describe d := by
  simp [told, withKind]

theorem State.told_withTerms (s : State) (a : Terms) (x : Saying) :
    (s.withTerms a).told x = (s.told x).withTerms a := by
  have hkind : (s.withTerms a).withKind x.kind x.format = (s.withKind x.kind x.format).withTerms a := by
    have hsame : (s.withTerms a).kind = s.kind := rfl
    unfold withKind
    rw [hsame]
    repeat' split
    all_goals rfl
  unfold told
  rw [hkind]
  unfold describe
  dsimp only [withTerms]
  split <;> rfl

/-- A rule of a table fails with what it says there, or adds that to the state. -/
theorem withEffect_eq (table : Table) (s : State) (t : Token) :
    withEffect table s t = liftM (s.told <$> t.tableSaying table) := by
  unfold withEffect Token.tableSaying
  cases table.types.get? t.name with
  | none => exact congrArg Except.ok s.told_nothing.symm
  | some effect =>
    obtain ⟨kind, format, pattern, description⟩ := effect
    -- The kind and the pattern are set before the rule is described.
    obtain ⟨set, hset⟩ : ∃ set : State, set = (pattern.filter (!·.isEmpty)).elim (s.withKind kind format) fun p =>
      { s.withKind kind format with pattern := some p } := ⟨_, rfl⟩
    have htold : ∀ d, s.told { kind, format, pattern := pattern.filter (!·.isEmpty), description := d } =
      set.describe d := by
      intro d
      rw [hset]
      unfold State.told
      cases pattern.filter (!·.isEmpty) <;> rfl
    refine Eq.trans (b := (description.filter (!·.isEmpty)).elim (pure set) fun d => do
      return set.describe (← (fill d "params" (join ", " t.params) : Except Fault String))) ?_ ?_
    · rw [hset]
      cases pattern with
      | none =>
        cases description with
        | none => rfl
        | some d => by_cases hd : d.isEmpty = true <;> simp [hd, Option.filter]
      | some p =>
        cases description with
        | none => by_cases hp : p.isEmpty = true <;> simp [hp, Option.filter]
        | some d => by_cases hp : p.isEmpty = true <;> by_cases hd : d.isEmpty = true <;> simp [hp, hd, Option.filter]
    · unfold Effect.saying
      dsimp only
      cases description.filter (!·.isEmpty) with
      | none => exact congrArg Except.ok ((htold "").trans (by simp [State.describe])).symm
      | some d =>
        simp only [Option.elim_some]
        cases fill d "params" (join ", " t.params) with
        | error f => rfl
        | ok text => exact congrArg Except.ok (htold text).symm

/-- The rules about the shape that are not in the table. -/
def shapeRules : List String := ["sometimes", "regex", "date_format", "digits", "digits_between"]

theorem applyPlain_other (h : t.isShape = true) (hname : t.name ∉ shapeRules) :
    applyPlain {} patterns s t = withEffect {} s t := by
  obtain ⟨hflag, hcondition, hbound, hin⟩ := Token.isShape_iff.1 h
  unfold applyPlain
  dsimp only
  split
  case h_18 => rw [if_neg (by simpa using hcondition)]
  all_goals
    rename_i hother
    simp [hother, flagRules, boundRules, shapeRules] at hflag hbound hin hname

theorem Token.saying_of_table (henum : t.name ≠ "enum") (hname : t.name ∉ shapeRules) :
    t.saying patterns = t.tableSaying := by
  simp only [shapeRules, List.mem_cons, List.not_mem_nil, or_false, not_or] at hname
  unfold saying
  split <;> simp_all

/-- A rule about the shape fails with what it says, or adds that to the state. -/
theorem applyPlain_shape (h : t.isShape = true) (henum : t.name ≠ "enum") :
    applyPlain {} patterns s t = liftM (s.told <$> t.saying patterns) := by
  have hquiet : ∀ s : State, s = s.told {} := fun s => s.told_nothing.symm
  by_cases hname : t.name ∈ shapeRules
  · obtain ⟨name, params⟩ := t
    simp only [shapeRules, List.mem_cons, List.not_mem_nil, or_false] at hname
    rcases hname with rfl | rfl | rfl | rfl | rfl
    · exact congrArg Except.ok (s.told_sentence _).symm
    · simp only [applyPlain, Token.saying]
      cases given? ⟨"regex", params⟩ with
      | none => exact congrArg Except.ok (hquiet s)
      | some raw =>
        simp only [withPattern]
        cases Pattern.exampleFor patterns (Pattern.clean raw) with
        | error f => rfl
        | ok found =>
          cases found with
          | none => rfl
          | some sample =>
            exact congrArg Except.ok (State.describe_withSample { s with pattern := some (Pattern.clean raw) } _ _).symm
    · rfl
    · simp only [applyPlain, Token.saying]
      cases given? ⟨"digits", params⟩ with
      | none => exact congrArg Except.ok (hquiet s)
      | some n => rfl
    · rcases params with _ | ⟨low, _ | ⟨high, rest⟩⟩
      · exact congrArg Except.ok (hquiet s)
      · exact congrArg Except.ok (hquiet s)
      · rfl
  · rw [applyPlain_other h hname, withEffect_eq, Token.saying_of_table henum hname]

theorem State.terms_told (s : State) (x : Saying) : (s.told x).terms = s.terms := by
  rw [← s.withTerms_terms, told_withTerms, terms_withTerms, terms_withTerms]

theorem State.foldl_told_withTerms (s : State) (a : Terms) (xs : List Saying) :
    xs.foldl State.told (s.withTerms a) = (xs.foldl State.told s).withTerms a := by
  induction xs generalizing s with
  | nil => rfl
  | cons x xs ih => rw [List.foldl_cons, List.foldl_cons, State.told_withTerms, ih]

/-! ## All rules of a field -/

/-- The interpreter with the usual table that looks up no enumeration. -/
abbrev plainInterpreter (patterns : Pattern.Lexicon) : Interpreter Attempt := { patterns }

theorem apply_terms (h : t.isShape = false) :
    apply (plainInterpreter patterns) s t = .ok (s.withTerms (s.terms.after t)) := by
  have henum : t.name ≠ "enum" := by
    intro hname
    simp [Token.isShape, Token.group, hname, flagRules, conditionalRules, boundRules] at h
  rw [apply, if_neg (by simpa using henum)]
  exact applyPlain_terms h

theorem apply_shape (h : t.isShape = true) :
    apply (plainInterpreter patterns) s t = liftM (s.told <$> t.saying patterns) := by
  unfold apply
  split
  · rename_i henum
    obtain ⟨name, params⟩ := t
    obtain rfl : name = "enum" := by simpa using henum
    exact congrArg Except.ok (s.told_sentence enumSentence).symm
  · rename_i henum
    exact applyPlain_shape h (by simpa using henum)

/-- The state that the rules of a field leave: what they say about the shape, in order, and the terms. -/
def stateAfter (patterns : Pattern.Lexicon) (s : State) (tokens : List Token) : Except Fault State := do
  let sayings ← (tokens.filter Token.isShape).mapM (Token.saying patterns)
  return (sayings.foldl State.told s).withTerms (tokens.foldl Terms.after s.terms)

/-- The rules about the shape can be read apart from the others. -/
theorem foldlM_apply_eq (tokens : List Token) (s : State) :
    tokens.foldlM (apply (plainInterpreter patterns)) s = liftM (stateAfter patterns s tokens) := by
  induction tokens generalizing s with
  | nil => rfl
  | cons t tokens ih =>
    rw [List.foldlM_cons]
    unfold stateAfter
    cases h : t.isShape with
    | true =>
      rw [apply_shape h, List.filter_cons_of_pos h, List.mapM_cons]
      cases t.saying patterns with
      | error f => rfl
      | ok x =>
        refine (ih (s.told x)).trans ?_
        rw [stateAfter, State.terms_told, List.foldl_cons, Terms.after_shape h]
        cases (tokens.filter Token.isShape).mapM (Token.saying patterns) <;> rfl
    | false =>
      rw [apply_terms h, List.filter_cons_of_neg (by simp [h])]
      refine (ih (s.withTerms (s.terms.after t))).trans ?_
      rw [stateAfter, State.terms_withTerms, List.foldl_cons]
      simp only [State.foldl_told_withTerms, State.withTerms_withTerms]

/-! ## Terms of all rules -/

theorem getLast?_filterMap_cons {α β : Type} (f : α → Option β) (a : α) (as : List α) :
    ((a :: as).filterMap f).getLast? = ((as.filterMap f).getLast?).or (f a) := by
  cases h : f a with
  | none => simp [h]
  | some b => cases hs : (as.filterMap f).getLast? <;> simp [h, hs, List.getLast?_cons]

namespace Terms

variable {tokens : List Token}

/-- A part that is only ever switched on is on if some rule has switched it on. -/
theorem foldl_flag {f : Terms → Bool} {p : Token → Bool} (h : ∀ a t, f (after a t) = (f a || p t)) (tokens : List Token)
    (a : Terms) : f (tokens.foldl after a) = (f a || tokens.any p) := by
  induction tokens generalizing a with
  | nil => simp
  | cons t tokens ih => rw [List.foldl_cons, ih, h, List.any_cons, Bool.or_assoc]

/-- A part that rules set is as the last of them has set it. -/
theorem foldl_last {β : Type} {f : Terms → β} {r : Token → Option β} (h : ∀ a t, f (after a t) = (r t).getD (f a))
    (tokens : List Token) (a : Terms) : f (tokens.foldl after a) = (tokens.filterMap r).getLast?.getD (f a) := by
  induction tokens generalizing a with
  | nil => rfl
  | cons t tokens ih =>
    rw [List.foldl_cons, ih, h, getLast?_filterMap_cons]
    cases (tokens.filterMap r).getLast? <;> rfl

theorem required_foldl (tokens : List Token) (a : Terms) :
    (tokens.foldl after a).required = (a.required || tokens.any (·.name = "required")) :=
  foldl_flag (fun _ _ => rfl) tokens a

theorem nullable_foldl (tokens : List Token) (a : Terms) :
    (tokens.foldl after a).nullable = (a.nullable || tokens.any (·.name = "nullable")) :=
  foldl_flag (fun _ _ => rfl) tokens a

theorem deprecated_foldl (tokens : List Token) (a : Terms) :
    (tokens.foldl after a).deprecated = (a.deprecated || tokens.any (·.name = "deprecated")) :=
  foldl_flag (fun _ _ => rfl) tokens a

theorem lower_foldl (tokens : List Token) (a : Terms) :
    (tokens.foldl after a).lower = (tokens.filterMap Token.lower?).getLast?.getD a.lower :=
  foldl_last (fun _ _ => rfl) tokens a

theorem upper_foldl (tokens : List Token) (a : Terms) :
    (tokens.foldl after a).upper = (tokens.filterMap Token.upper?).getLast?.getD a.upper :=
  foldl_last (fun _ _ => rfl) tokens a

theorem enumValues_foldl (tokens : List Token) (a : Terms) :
    (tokens.foldl after a).enumValues = (tokens.filterMap (·.choices?.map some)).getLast?.getD a.enumValues :=
  foldl_last (fun a t => by cases h : t.choices? <;> simp [after, h]) tokens a

theorem requirements_foldl (tokens : List Token) (a : Terms) :
    (tokens.foldl after a).requirements =
      a.requirements ++ (tokens.filter Token.isRequirement).map Token.requirement := by
  induction tokens generalizing a with
  | nil => simp
  | cons t tokens ih =>
    rw [List.foldl_cons, ih, after, List.append_assoc]
    cases h : t.isRequirement <;> simp [h]

end Terms

/-! ## Order between groups -/

/-- Two lists of rules that agree in each group. -/
def SameGroups (ts us : List Token) : Prop := ∀ g : Group, ts.filter (·.group = g) = us.filter (·.group = g)

namespace SameGroups

variable {ts us : List Token} {g : Group}

theorem filter (h : SameGroups ts us) {p : Token → Bool} (hp : ∀ t, p t = true → t.group = g) :
    ts.filter p = us.filter p := by
  have hfilter : ∀ l : List Token, (l.filter (·.group = g)).filter p = l.filter p := by
    intro l
    rw [List.filter_filter]
    refine List.filter_congr fun t _ => ?_
    cases ht : p t with
    | false => rfl
    | true => simp [hp t ht]
  rw [← hfilter ts, h g, hfilter us]

theorem any (h : SameGroups ts us) {p : Token → Bool} (hp : ∀ t, p t = true → t.group = g) : ts.any p = us.any p := by
  have hany : ∀ l : List Token, (l.filter p).any p = l.any p := fun l => by simp [List.any_filter]
  rw [← hany ts, h.filter hp, hany us]

theorem filterMap {β : Type} (h : SameGroups ts us) {f : Token → Option β}
    (hf : ∀ t, (f t).isSome = true → t.group = g) :
    ts.filterMap f = us.filterMap f := by
  have hfilterMap : ∀ l : List Token, (l.filter fun t => (f t).isSome).filterMap f = l.filterMap f := by
    intro l
    rw [List.filterMap_filter]
    congr
    funext t
    cases f t <;> rfl
  rw [← hfilterMap ts, h.filter hf, hfilterMap us]

end SameGroups

section

variable {ts us : List Token}

theorem Token.group_of_flag (h : t.name ∈ flagRules) : t.group = .flag := if_pos h

theorem Token.group_of_condition (h : t.name ∈ conditionalRules) : t.group = .condition := by
  have hflag : ∀ name ∈ conditionalRules, name ∉ flagRules := by decide
  rw [group, if_neg (hflag _ h), if_pos h]

theorem Token.group_of_bound (h : t.name ∈ boundRules) : t.group = .bound := by
  have hother : ∀ name ∈ boundRules, name ∉ flagRules ∧ name ∉ conditionalRules := by decide
  rw [group, if_neg (hother _ h).1, if_neg (hother _ h).2, if_pos h]

theorem Token.group_of_choice (h : t.name = "in") : t.group = .choice := by
  simp [group, h, flagRules, conditionalRules, boundRules]

/-- The terms hang on the order inside each group only. -/
theorem Terms.foldl_eq_of_groups (h : SameGroups ts us) (a : Terms) :
    ts.foldl Terms.after a = us.foldl Terms.after a := by
  have hflag : ∀ name ∈ flagRules, ts.any (·.name = name) = us.any (·.name = name) := fun name hname =>
    h.any fun t ht => Token.group_of_flag (by simpa [of_decide_eq_true ht] using hname)
  have hbound : ∀ f : Token → Option (Option Value), (∀ t, t.name ∉ boundRules → f t = none) →
      ts.filterMap f = us.filterMap f := fun f hf =>
    h.filterMap fun t ht => Token.group_of_bound (Decidable.byContradiction fun hname => by simp [hf t hname] at ht)
  have hlower := hbound Token.lower? fun t => Token.lower?_eq_none
  have hupper := hbound Token.upper? fun t => Token.upper?_eq_none
  have hchoices : ts.filterMap (·.choices?.map some) = us.filterMap (·.choices?.map some) :=
    h.filterMap fun t ht => Token.group_of_choice (Decidable.byContradiction fun hname => by
      simp [Token.choices?_eq_none hname] at ht)
  have hrequirement : ts.filter Token.isRequirement = us.filter Token.isRequirement :=
    h.filter fun t ht => Token.group_of_condition (Decidable.byContradiction fun hname => by
      simp [Token.isRequirement_eq_false hname] at ht)
  apply Terms.ext
  · rw [required_foldl, required_foldl, hflag "required" (by decide)]
  · rw [nullable_foldl, nullable_foldl, hflag "nullable" (by decide)]
  · rw [deprecated_foldl, deprecated_foldl, hflag "deprecated" (by decide)]
  · rw [enumValues_foldl, enumValues_foldl, hchoices]
  · rw [lower_foldl, lower_foldl, hlower]
  · rw [upper_foldl, upper_foldl, hupper]
  · rw [requirements_foldl, requirements_foldl, hrequirement]

/-- Without enumerations, what the rules of a field leave hangs on the order inside each group only. -/
theorem stateAfter_eq_of_groups (hts : ∀ t ∈ ts, t.name ≠ "enum") (hus : ∀ t ∈ us, t.name ≠ "enum")
    (h : SameGroups ts us) (s : State) : stateAfter patterns s ts = stateAfter patterns s us := by
  have hshape : ∀ l : List Token, (∀ t ∈ l, t.name ≠ "enum") →
      l.filter Token.isShape = l.filter (·.group = .shape) := by
    intro l hl
    refine List.filter_congr fun t ht => ?_
    have hgroup : t.group ≠ .enumeration := by
      have hname := hl t ht
      unfold Token.group
      repeat' split
      all_goals simp_all
    simp [Token.isShape, hgroup]
  rw [stateAfter, stateAfter, hshape ts hts, hshape us hus, h .shape, Terms.foldl_eq_of_groups h]

end

/-! ## Enumerations -/

/-- The terms without the values that are allowed. An enumeration can change nothing else of them. -/
def Terms.unlisted (a : Terms) : Terms := { a with enumValues := none }

theorem Terms.unlisted_after {b : Terms} (h : a.unlisted = b.unlisted) (t : Token) :
    (a.after t).unlisted = (b.after t).unlisted := by
  simp only [unlisted, mk.injEq, true_and] at h
  obtain ⟨hrequired, hnullable, hdeprecated, hlower, hupper, hrequirements⟩ := h
  simp [unlisted, after, hrequired, hnullable, hdeprecated, hlower, hupper, hrequirements]

theorem Terms.unlisted_foldl {b : Terms} (h : a.unlisted = b.unlisted) (tokens : List Token) :
    (tokens.foldl after a).unlisted = (tokens.foldl after b).unlisted := by
  induction tokens generalizing a b with
  | nil => exact h
  | cons t tokens ih => exact ih (unlisted_after h t)

variable {table : Table}

theorem State.terms_withKind (s : State) (kind : Option Kind) (format : Option String) :
    (s.withKind kind format).terms = s.terms := by
  unfold withKind
  repeat' split
  all_goals rfl

theorem unlisted_withEnum (s : State) (values : List Value) :
    (withEnum s values).terms.unlisted = s.terms.unlisted := by
  unfold withEnum
  dsimp only
  repeat' split
  all_goals first | rw [State.terms_withKind]; rfl | rfl

theorem State.terms_describe (s : State) (text : String) : (s.describe text).terms = s.terms := by
  rw [← told_sentence, terms_told]

theorem terms_withEffect (h : withEffect table s t = .ok s') : s'.terms = s.terms := by
  rw [withEffect_eq] at h
  cases hx : t.tableSaying table with
  | error f => rw [hx] at h; cases h
  | ok x =>
    rw [hx] at h
    cases h
    exact s.terms_told x

/-- A rule is the same with every table, or it is looked up there and is not about the terms. -/
theorem applyPlain_cases (table : Table) (patterns : Pattern.Lexicon) (s : State) (t : Token) :
    applyPlain table patterns s t = applyPlain {} patterns s t ∨
      applyPlain table patterns s t = withEffect table s t ∧ ∀ a : Terms, a.after t = a := by
  obtain ⟨name, params⟩ := t
  unfold applyPlain
  dsimp only
  split
  case h_15 =>
    rcases params with _ | ⟨low, _ | ⟨high, rest⟩⟩
    · exact .inr ⟨rfl, fun a => Terms.after_bound (by simp [boundRules])⟩
    · exact .inr ⟨rfl, fun a => Terms.after_bound (by simp [boundRules])⟩
    · exact .inl rfl
  case h_16 =>
    cases given? ⟨"digits", params⟩ with
    | none => exact .inr ⟨rfl, fun a => Terms.after_shape rfl⟩
    | some n => exact .inl rfl
  case h_17 =>
    rcases params with _ | ⟨low, _ | ⟨high, rest⟩⟩
    · exact .inr ⟨rfl, fun a => Terms.after_shape rfl⟩
    · exact .inr ⟨rfl, fun a => Terms.after_shape rfl⟩
    · exact .inl rfl
  case h_18 =>
    by_cases hcondition : conditionalRules.contains name = true
    · exact .inl (by rw [if_pos hcondition, if_pos hcondition])
    · refine .inr ⟨if_neg hcondition, fun a => Terms.after_shape (Token.isShape_iff.2 ?_)⟩
      simp_all [flagRules, boundRules]
  all_goals exact .inl rfl

/-- A rule changes the terms as it says, with every table. -/
theorem terms_applyPlain (henum : t.name ≠ "enum") (h : applyPlain table patterns s t = .ok s') :
    s'.terms = s.terms.after t := by
  rcases applyPlain_cases table patterns s t with heq | ⟨heq, hsame⟩
  · rw [heq] at h
    cases hshape : t.isShape with
    | false =>
      rw [applyPlain_terms hshape] at h
      cases h
      rfl
    | true =>
      rw [applyPlain_shape hshape henum] at h
      cases hx : t.saying patterns with
      | error f => rw [hx] at h; cases h
      | ok x =>
        rw [hx] at h
        cases h
        rw [State.terms_told, Terms.after_shape hshape]
  · rw [heq] at h
    rw [terms_withEffect h, hsame]

section

variable {σ : Type} {enums : EnumLookup (Over σ)} {l : σ}

theorem unlisted_apply (h : result (apply ⟨table, patterns, enums⟩ s t) l = .ok s') :
    s'.terms.unlisted = (s.terms.after t).unlisted := by
  unfold apply at h
  split at h
  · rename_i hname
    have hshape : t.isShape = true := by
      simp [Token.isShape, Token.group, beq_iff_eq.1 hname, flagRules, conditionalRules, boundRules]
    have hplain := s.terms_describe enumSentence
    rw [Terms.after_shape hshape]
    split at h
    · rename_i lookup name _ _
      obtain ⟨found, -, h⟩ := exists_of_result_bind h
      split at h
      · cases h
        exact unlisted_withEnum _ _
      · cases h
        rw [hplain]
    · cases h
      rw [hplain]
  · rename_i hname
    rw [terms_applyPlain (by simpa using hname) h]

theorem unlisted_foldlM {tokens : List Token}
    (h : result (tokens.foldlM (apply ⟨table, patterns, enums⟩) s) l = .ok s') :
    s'.terms.unlisted = (tokens.foldl Terms.after s.terms).unlisted := by
  induction tokens generalizing s l with
  | nil =>
    cases h
    rfl
  | cons t tokens ih =>
    rw [List.foldlM_cons] at h
    obtain ⟨s₁, hs, h⟩ := exists_of_result_bind h
    exact (ih h).trans (Terms.unlisted_foldl (unlisted_apply hs) tokens)

/-- Rules without an enumeration are interpreted in the same way whatever is looked up. -/
theorem interpretTokens_eq_lift {tokens : List Token} (htokens : ∀ t ∈ tokens, t.name ≠ "enum") :
    interpretTokens ⟨{}, patterns, enums⟩ tokens =
      (liftM (liftM (stateAfter patterns {} tokens) >>= State.node : Attempt Node) : Over σ Node) := by
  have hfold : ∀ s, tokens.foldlM (apply ⟨{}, patterns, enums⟩) s =
      (liftM (tokens.foldlM (apply (plainInterpreter patterns)) s) : Over σ State) := by
    induction tokens with
    | nil => exact fun s => rfl
    | cons t tokens ih =>
      intro s
      have hname := htokens t List.mem_cons_self
      rw [List.foldlM_cons, List.foldlM_cons, apply, apply, if_neg (by simpa using hname),
        if_neg (by simpa using hname)]
      cases applyPlain {} patterns s t with
      | error p => rfl
      | ok s₁ => exact ih (List.forall_mem_cons.1 htokens).2 s₁
  rw [interpretTokens, hfold, foldlM_apply_eq]
  cases stateAfter patterns {} tokens <;> rfl

theorem facets_of_build {d : Draft} {n : Node} (h : d.build = .ok n) : n.facets = d.facets := by
  unfold Draft.build at h
  repeat' split at h
  all_goals cases h
  all_goals rfl

theorem kind_of_build {d : Draft} {n : Node} (h : d.build = .ok n) : n.kind = d.kind := by
  unfold Draft.build at h
  repeat' split at h
  all_goals cases h
  all_goals simp_all [Node.kind]

theorem sizeSentence_ne_empty (most : Value) : sizeSentence most ≠ "" := by
  intro h
  have hend : " kilobytes." = "" := (String.append_eq_empty_iff.1 h).2
  exact absurd hend (by decide)

theorem State.node_eq {c : Constraints} (h : boundsOf (s.kind.getD .string) s = .ok c) :
    s.node = if s.isSpelled (s.kind.getD .string) then liftM (s.draft (s.kind.getD .string) c).build
      else .error (.fault .invalid) := by
  unfold State.node
  dsimp only
  rw [h]
  rfl

theorem State.exists_of_node {n : Node} (h : s.node = .ok n) :
    ∃ c, boundsOf n.kind s = .ok c ∧ n.kind = s.kind.getD .string ∧ n.facets = (s.sized n.kind).facets n.kind c := by
  cases hc : boundsOf (s.kind.getD .string) s with
  | error f =>
    unfold State.node at h
    dsimp only at h
    rw [hc] at h
    cases h
  | ok c =>
    rw [State.node_eq hc] at h
    split at h
    case isFalse => cases h
    have hbuild : (s.draft (s.kind.getD .string) c).build = .ok n := ok_of_mapError h
    have hkind : n.kind = s.kind.getD .string := kind_of_build hbuild
    have hfacets := facets_of_build hbuild
    rw [← hkind] at hc hfacets
    exact ⟨c, hc, hkind, hfacets⟩

theorem State.exists_describe (s : State) (text : String) :
    ∃ sentences, s.describe text = { s with descriptions := sentences } ∧ (text ≠ "" → text ∈ sentences) := by
  unfold State.describe
  split
  · rename_i hthere
    refine ⟨s.descriptions, rfl, fun h => ?_⟩
    simpa [h] using hthere
  · exact ⟨_, rfl, fun _ => by simp⟩

/-- Only the sentences change when the size of a file is told. -/
theorem State.exists_sized (s : State) (kind : Kind) :
    ∃ sentences, s.sized kind = { s with descriptions := sentences } ∧
    (kind = .string → s.format = some "binary" → ∀ most ∈ s.upper, sizeSentence most ∈ sentences) := by
  unfold State.sized
  split
  · rename_i most hupper
    split
    · obtain ⟨sentences, hdescribe, hmem⟩ := s.exists_describe (sizeSentence most)
      refine ⟨sentences, hdescribe, fun _ _ v hv => ?_⟩
      obtain rfl : most = v := Option.some.inj (hupper.symm.trans hv)
      exact hmem (sizeSentence_ne_empty most)
    · rename_i hformat
      exact ⟨_, rfl, fun _ hbinary => absurd (by simp [hbinary]) hformat⟩
  · rename_i hother
    refine ⟨_, rfl, fun hkind _ most hmost => ?_⟩
    exact (hother most hkind hmost).elim

theorem flags_of_node {n : Node} (h : s.node = .ok n) : n.facets.required = s.required ∧
    n.facets.nullable = s.nullable ∧ n.facets.deprecated = s.deprecated ∧ n.facets.requirements = s.requirements := by
  obtain ⟨c, -, -, hfacets⟩ := State.exists_of_node h
  obtain ⟨sentences, hsized, -⟩ := s.exists_sized n.kind
  rw [hfacets, hsized]
  exact ⟨rfl, rfl, rfl, rfl⟩

theorem parse_tokens (ts : List Token) : parse (.elements (ts.map .token)) = ts := by
  simp [parse, List.filterMap_map, Function.comp_def, Element.token?]

/-- Only the order inside each group of rules counts: lists of rules without enumerations that agree in each group have
the same node or fail alike. A flag is set by the rule of its name and by no other, in particular not by a requirement
under a condition; and the requirements are those of the rules with parameters, in order. -/
theorem interpret_eq_of_groups (patterns : Pattern.Lexicon) (enums : EnumLookup (ExceptT Problem (StateM σ))) :
    (∀ ts us : List Token, (∀ t ∈ ts, t.name ≠ "enum") → (∀ t ∈ us, t.name ≠ "enum") → SameGroups ts us →
      interpret ⟨{}, patterns, enums⟩ (.elements (ts.map .token)) =
        interpret ⟨{}, patterns, enums⟩ (.elements (us.map .token))) ∧
    (∀ (ts : List Token) (l : σ) (n : Node),
      result (interpret ⟨{}, patterns, enums⟩ (.elements (ts.map .token))) l = .ok n →
        (n.facets.required = true ↔ ∃ t ∈ ts, t.name = "required") ∧
        (n.facets.nullable = true ↔ ∃ t ∈ ts, t.name = "nullable") ∧
        (n.facets.deprecated = true ↔ ∃ t ∈ ts, t.name = "deprecated") ∧
        n.facets.requirements = (ts.filter Token.isRequirement).map Token.requirement) ∧
    (∀ (s s' : State) (t : Token) (l : σ), t.name ∈ conditionalRules →
      result (apply ⟨{}, patterns, enums⟩ s t) l = .ok s' → s'.required = s.required) := by
  refine ⟨fun ts us hts hus h => ?_, fun ts l n hn => ?_, fun s s' t l ht hs => ?_⟩
  · rw [interpret, interpret, parse_tokens, parse_tokens, interpretTokens_eq_lift hts, interpretTokens_eq_lift hus,
      stateAfter_eq_of_groups hts hus h]
  · rw [interpret, parse_tokens, interpretTokens, result_bind] at hn
    cases hs : result (ts.foldlM (apply ⟨{}, patterns, enums⟩) {}) l with
    | error p => rw [hs] at hn; cases hn
    | ok s =>
      rw [hs] at hn
      obtain ⟨hrequired, hnullable, hdeprecated, hrequirements⟩ := flags_of_node hn
      have hterms := unlisted_foldlM hs
      have hrequired' : s.required = _ := congrArg Terms.required hterms
      have hnullable' : s.nullable = _ := congrArg Terms.nullable hterms
      have hdeprecated' : s.deprecated = _ := congrArg Terms.deprecated hterms
      have hrequirements' : s.requirements = _ := congrArg Terms.requirements hterms
      rw [hrequired, hnullable, hdeprecated, hrequirements, hrequired', hnullable', hdeprecated', hrequirements']
      simp only [Terms.unlisted, Terms.required_foldl, Terms.nullable_foldl, Terms.deprecated_foldl,
        Terms.requirements_foldl]
      simp [State.terms]
  · have hrequired : s'.required = (s.terms.after t).required := congrArg Terms.required (unlisted_apply hs)
    rw [hrequired, Terms.after_condition ht]
    rfl

end

/-- Rules of all groups. -/
def mixedRules : List Token := [
  ⟨"between", ["1", "9"]⟩, ⟨"required_if", ["type", "company", "club"]⟩, ⟨"integer", []⟩, ⟨"in", ["a"]⟩,
    ⟨"nullable", []⟩,
  ⟨"max", ["5"]⟩, ⟨"string", []⟩, ⟨"required_with", []⟩, ⟨"in", ["a", "b"]⟩, ⟨"digits", ["3"]⟩, ⟨"gt", ["other"]⟩]

/-- The same rules, group by group. -/
def groupedRules : List Token := [
  ⟨"nullable", []⟩, ⟨"required_if", ["type", "company", "club"]⟩, ⟨"required_with", []⟩, ⟨"in", ["a"]⟩,
    ⟨"in", ["a", "b"]⟩,
  ⟨"integer", []⟩, ⟨"string", []⟩, ⟨"digits", ["3"]⟩, ⟨"between", ["1", "9"]⟩, ⟨"max", ["5"]⟩, ⟨"gt", ["other"]⟩]

/-- How a list of rules is interpreted when nothing can be looked up. -/
def interpreted (tokens : List Token) : Over Unit Node := interpret {} (.elements (tokens.map .token))

theorem interpret_mixedRules :
    interpreted mixedRules = interpreted groupedRules ∧
      (∃ n, result (interpreted mixedRules) () = .ok n ∧ n.facets.required = false ∧ n.facets.nullable = true ∧
        n.facets.deprecated = false ∧ n.facets.requirements.map (·.kind) = ["required_if"]) ∧
      ∃ s', result (apply (m := ExceptT Problem (StateM Unit)) {} {} ⟨"required_if", ["type", "company"]⟩) () = .ok s' ∧
        s'.required = false := by
  obtain ⟨horder, hmarks, hcondition⟩ :=
    interpret_eq_of_groups Pattern.knownPatterns (none : EnumLookup (ExceptT Problem (StateM Unit)))
  have hgroups : SameGroups mixedRules groupedRules := by
    intro g
    cases g <;> decide +kernel
  refine ⟨horder _ _ (by decide +kernel) (by decide +kernel) hgroups, ?_, ?_⟩
  · have hsome : (result (interpreted mixedRules) ()).toOption.isSome = true := by decide +kernel
    cases hn : result (interpreted mixedRules) () with
    | error p => simp [hn, Except.toOption] at hsome
    | ok n =>
      obtain ⟨hrequired, hnullable, hdeprecated, hrequirements⟩ := hmarks mixedRules () n hn
      have hnone : ¬ (∃ t ∈ mixedRules, t.name = "required") ∧ ¬ (∃ t ∈ mixedRules, t.name = "deprecated") := by
        decide +kernel
      refine ⟨n, rfl, ?_, hnullable.2 (by decide +kernel), ?_, ?_⟩
      · exact Bool.eq_false_iff.2 fun h => hnone.1 (hrequired.1 h)
      · exact Bool.eq_false_iff.2 fun h => hnone.2 (hdeprecated.1 h)
      · rw [hrequirements]
        decide +kernel
  · exact ⟨_, rfl, hcondition {} _ ⟨"required_if", ["type", "company"]⟩ () (by decide) rfl⟩

end ApiSchema.Rule
