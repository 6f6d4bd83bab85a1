import ApiSchema.Proofs.Family
import ApiSchema.Proofs.RuleGroups
import ApiSchema.Proofs.Sentences
import ApiSchema.Proofs.Ungrouped

/-!
# Rules that cannot be interpreted

With the usual tables the rules of a field fail in two ways only. A pattern can ask for more repetitions than can be
counted or written out, or for options that exclude each other (`succeedsIff_saying`). And a bound can be infinite or no
number where the field is a text or an array in the end, whose length is a whole number (`succeedsIff_node`). All other
parameters lead to a node, however malformed they are.

Which type the field has in the end is read off from the rules themselves (`typeOf`, `typed_foldl`).
-/
namespace ApiSchema

/-- A computation has a result exactly if a condition holds, and else fails in one of some ways. -/
def SucceedsIff {ε α : Type} (E : ε → Prop) (p : Prop) (x : Except ε α) : Prop :=
  (p ∧ ∃ a, x = .ok a) ∨ ¬ p ∧ ∃ e, x = .error e ∧ E e

namespace SucceedsIff

variable {ε α β : Type} {E : ε → Prop} {p q : Prop} {x : Except ε α} {f : α → Except ε β}

theorem ok (h : p) (a : α) : SucceedsIff E p (.ok a) := .inl ⟨h, a, rfl⟩

theorem error (h : ¬ p) {e : ε} (he : E e) : SucceedsIff E p (.error e : Except ε α) := .inr ⟨h, e, rfl, he⟩

theorem congr (h : SucceedsIff E p x) (hpq : p ↔ q) : SucceedsIff E q x := by
  rwa [SucceedsIff, ← hpq]

theorem bind (hx : SucceedsIff E p x) (hf : ∀ a, x = .ok a → SucceedsIff E q (f a)) :
    SucceedsIff E (p ∧ q) (x >>= f) := by
  rcases hx with ⟨hp, a, rfl⟩ | ⟨hp, e, rfl, he⟩
  · rcases hf a rfl with ⟨hq, b, hb⟩ | ⟨hq, e, hb, he⟩
    · exact .inl ⟨⟨hp, hq⟩, b, hb⟩
    · exact .inr ⟨fun h => hq h.2, e, hb, he⟩
  · exact .inr ⟨fun h => hp h.1, e, rfl, he⟩

theorem map (hx : SucceedsIff E p x) (g : α → β) : SucceedsIff E p (x >>= fun a => pure (g a)) := by
  rcases hx with ⟨hp, a, rfl⟩ | ⟨hp, e, rfl, he⟩
  · exact .inl ⟨hp, g a, rfl⟩
  · exact .inr ⟨hp, e, rfl, he⟩

theorem mapM {P : α → Prop} {as : List α} (hf : ∀ a ∈ as, SucceedsIff E (P a) (f a)) :
    SucceedsIff E (∀ a ∈ as, P a) (as.mapM f) := by
  induction as with
  | nil => exact .ok (by simp) []
  | cons a as ih =>
    rw [List.mapM_cons]
    refine ((hf a List.mem_cons_self).bind (q := ∀ b ∈ as, P b) fun b _ => ?_).congr List.forall_mem_cons.symm
    exact (ih (List.forall_mem_cons.1 hf).2).map (b :: ·)

theorem exists_ok_iff (hx : SucceedsIff E p x) : (∃ a, x = .ok a) ↔ p := by
  rcases hx with ⟨hp, a, rfl⟩ | ⟨hp, e, rfl, -⟩
  · exact ⟨fun _ => hp, fun _ => ⟨a, rfl⟩⟩
  · refine ⟨?_, fun h => absurd h hp⟩
    rintro ⟨_, h⟩
    cases h

theorem of_error (hx : SucceedsIff E p x) {e : ε} (h : x = .error e) : E e := by
  rcases hx with ⟨-, a, rfl⟩ | ⟨-, e', rfl, he⟩
  · cases h
  · cases h
    exact he

end SucceedsIff

/-- A number that is beyond every number, or none at all. -/
def Fault.IsExcess (f : Fault) : Prop := f = .overflow ∨ f = .invalid

def Problem.IsExcess (p : Problem) : Prop := p = .fault .overflow ∨ p = .fault .invalid

theorem SucceedsIff.liftBind {α β : Type} {p q : Prop} {x : Except Fault α} {f : α → Attempt β}
    (hx : SucceedsIff Fault.IsExcess p x) (hf : ∀ a, x = .ok a → SucceedsIff Problem.IsExcess q (f a)) :
    SucceedsIff Problem.IsExcess (p ∧ q) (liftM x >>= f) := by
  have hlift : SucceedsIff Problem.IsExcess p (liftM x : Attempt α) := by
    rcases hx with ⟨hp, a, rfl⟩ | ⟨hp, e, rfl, rfl | rfl⟩
    · exact .ok hp a
    · exact .error hp (.inl rfl)
    · exact .error hp (.inr rfl)
  refine hlift.bind fun a ha => hf a ?_
  cases x with
  | error e => cases ha
  | ok b => exact congrArg Except.ok (Except.ok.inj ha)

namespace Pattern

open Text

/-- The parts of a flat pattern up to the first one without a sample: the samples and how often they are repeated. -/
def partsOf (samples : Entries String) : Nat → List Char → List (List Char × Nat)
  | 0, _ => []
  | n + 1, cs =>
    match part? samples cs with
    | some (sample, count, more) => (sample, count) :: partsOf samples n more
    | none => []

/-- Whether every part of a pattern has an example that can be written out; an example is made of a flat pattern
only. -/
def isWritable (text : String) : Bool :=
  let body := bodyOf text.toList
  body.any (fun c => c == '(' || c == ')' || c == '|') ||
    (partsOf setSamples body.length body).all fun part => stretched part.1 part.2 ≤ maxLength

/-- Whether a text is malformed or writes a pattern whose parts have examples. Else it asks for more repetitions than
can be counted or written out, or for options that exclude each other. -/
def isDecided (characters : Characters) (text : String) : Bool :=
  match read text characters with
  | .error .malformed => true
  | .error _ => false
  | .ok _ => isWritable text

theorem succeedsIff_cycle (sample : List Char) (n : Nat) :
    SucceedsIff Fault.IsExcess (stretched sample n ≤ maxLength) (cycle sample n) := by
  by_cases h : stretched sample n ≤ maxLength
  · rw [cycle_of_le h]
    exact .ok h _
  · rw [cycle_of_lt (Nat.not_le.1 h)]
    exact .error h (.inl rfl)

theorem partsOf_nil (samples : Entries String) (n : Nat) : partsOf samples n [] = [] := by
  cases n <;> rfl

theorem succeedsIff_buildFrom (samples : Entries String) (n : Nat) (cs : List Char) :
    SucceedsIff Fault.IsExcess (∀ part ∈ partsOf samples n cs, stretched part.1 part.2 ≤ maxLength)
      (buildFrom samples n cs) := by
  induction n generalizing cs with
  | zero => cases cs <;> exact .ok (by simp [partsOf]) _
  | succ n ih =>
    cases cs with
    | nil => exact .ok (by simp [partsOf_nil]) _
    | cons c cs =>
      unfold buildFrom partsOf
      cases part? samples (c :: cs) with
      | none => exact .ok (List.forall_mem_nil _) _
      | some part =>
        obtain ⟨sample, count, more⟩ := part
        refine SucceedsIff.congr ?_ List.forall_mem_cons.symm
        exact (succeedsIff_cycle sample count).bind fun _ _ => (ih more).map _

theorem succeedsIff_build? (text : String) :
    SucceedsIff Fault.IsExcess (isWritable text = true) (build? text setSamples) := by
  unfold build? isWritable
  dsimp only
  split
  · rename_i hgroup
    exact .ok (by rw [hgroup]; rfl) _
  · rename_i hflat
    refine ((succeedsIff_buildFrom setSamples _ _).map _).congr ?_
    rw [Bool.eq_false_iff.2 hflat, Bool.false_or, List.all_eq_true]
    simp only [decide_eq_true_eq]

/-- A pattern that an example is tried out for has no groups, so that every attempt comes to an end. -/
theorem exists_firstMatch? {text : String} {characters : Characters} {p : Pattern} {built : Option String}
    (hread : read text characters = .ok p) (hbuilt : build? text setSamples = .ok built) :
    ∃ found, firstMatch? p (((knownPatterns.get? text).map (·.sample)).toList ++ built.toList) = .ok found := by
  cases hk : knownPatterns.get? text with
  | some k => exact firstMatch?_of_ungrouped (ungrouped_of_known hk hread) _
  | none =>
    cases built with
    | none => exact ⟨none, rfl⟩
    | some sample => exact firstMatch?_of_ungrouped (ungrouped_of_read hread (loose_of_build? hbuilt)) _

theorem succeedsIff_exampleFor (characters : Characters) (text : String) :
    SucceedsIff Fault.IsExcess (isDecided characters (clean text) = true) (exampleFor { characters } text) := by
  unfold exampleFor isDecided
  dsimp only
  cases hread : read (clean text) characters with
  | error e =>
    cases e with
    | malformed => exact .ok rfl none
    | tooLarge => exact .error Bool.false_ne_true (.inl rfl)
    | refused => exact .error Bool.false_ne_true (.inr rfl)
  | ok p =>
    refine ((succeedsIff_build? (clean text)).bind (q := True) fun built hbuilt => ?_).congr (Iff.of_eq (and_true _))
    exact .inl ⟨trivial, exists_firstMatch? hread hbuilt⟩

end Pattern

namespace Rule

open Text

/-! ## Rules about the shape -/

namespace Token

/-- Whether the pattern of a rule, if it has one, can be tried out. -/
def isDecided (characters : Pattern.Characters) (t : Token) : Bool :=
  if t.name = "regex" then (given? t).all fun raw => Pattern.isDecided characters (Pattern.clean (Pattern.clean raw))
  else true

/-- The kind and the format that a rule gives a field. -/
def type? (t : Token) : Option (Kind × Option String) :=
  match t.name with
  | "date_format" =>
    some (.string, some (if timeMarkers.any (Text.contains (t.first?.getD "")) then "date-time" else "date"))
  | "digits" => (given? t).map fun _ => (.string, none)
  | "digits_between" => if 2 ≤ t.params.length then some (.string, none) else none
  | name => (typeRules.get? name).bind fun e => e.kind.map (·, e.format)

end Token

/-- A rule of the table that says something can always say it. -/
theorem exists_saying_of_mem {e : Effect} (he : e ∈ typeRules.values) (params : List String) :
    ∃ x, e.saying params = .ok x ∧ x.kind = e.kind ∧ x.format = e.format := by
  have hall : ∀ e ∈ typeRules.values, ∀ d ∈ e.description, d.toList.all isOrdinary = true ∨
      d.toList = d.toList.takeWhile isOrdinary ++ '\x7b' :: ("params".toList ++ ['\x7d', '.']) := by decide +kernel
  unfold Effect.saying
  cases hd : e.description.filter (!·.isEmpty) with
  | none => exact ⟨e.plain, rfl, rfl, rfl⟩
  | some d =>
    have hfill : ∃ out, fill d "params" (join ", " params) = .ok out := by
      rcases hall e he d (Option.filter_eq_some_iff.1 hd).1 with h | h
      · exact fill_plain h _ _
      · exact fill_about isPlain_params _ _ h List.all_takeWhile (by decide) _
    obtain ⟨out, hout⟩ := hfill
    refine ⟨{ e.plain with description := out }, ?_, rfl, rfl⟩
    simp only [Option.elim_some, hout]
    rfl

variable {t : Token} {s : State}

theorem exists_tableSaying (t : Token) : ∃ x, t.tableSaying = .ok x := by
  unfold Token.tableSaying
  cases hget : typeRules.get? t.name with
  | none => exact ⟨{}, rfl⟩
  | some e =>
    obtain ⟨x, hx, -⟩ := exists_saying_of_mem (Entries.mem_values hget) t.params
    exact ⟨x, hx⟩

theorem succeedsIff_saying (characters : Pattern.Characters) (t : Token) :
    SucceedsIff Fault.IsExcess (t.isDecided characters = true) (t.saying { characters }) := by
  obtain ⟨name, params⟩ := t
  by_cases hname : name = "regex"
  · subst hname
    simp only [Token.saying, Token.isDecided, if_true]
    cases given? ⟨"regex", params⟩ with
    | none => exact .ok rfl _
    | some raw =>
      simp only [Option.all_some]
      exact (Pattern.succeedsIff_exampleFor characters (Pattern.clean raw)).map _
  · refine .inl ⟨if_neg hname, ?_⟩
    unfold Token.saying
    split
    case h_3 heq => exact absurd heq hname
    case h_7 => exact exists_tableSaying _
    · exact ⟨_, rfl⟩
    · exact ⟨_, rfl⟩
    · exact ⟨_, rfl⟩
    · split <;> exact ⟨_, rfl⟩
    · split <;> exact ⟨_, rfl⟩

theorem Token.type?_of_table (hname : t.name ∉ shapeRules) :
    t.type? = (typeRules.get? t.name).bind fun e => e.kind.map (·, e.format) := by
  simp only [shapeRules, List.mem_cons, List.not_mem_nil, or_false, not_or] at hname
  unfold type?
  split <;> simp_all

/-- A rule of the table gives the type that it has there. -/
theorem type_of_tableSaying {x : Saying} (hname : t.name ∉ shapeRules) (h : t.tableSaying = .ok x) :
    x.kind = t.type?.map (·.1) ∧ x.format = t.type?.bind (·.2) := by
  unfold Token.tableSaying at h
  rw [Token.type?_of_table hname]
  cases hget : typeRules.get? t.name with
  | none =>
    rw [hget] at h
    cases h
    exact ⟨rfl, rfl⟩
  | some e =>
    have hmem := Entries.mem_values hget
    have hall : ∀ e ∈ typeRules.values, e.kind.isSome = true := by decide
    obtain ⟨k, hk⟩ := Option.isSome_iff_exists.1 (hall e hmem)
    obtain ⟨y, hy, hkind, hformat⟩ := exists_saying_of_mem hmem t.params
    rw [hget] at h
    obtain rfl : y = x := Except.ok.inj (hy.symm.trans h)
    simp [hkind, hformat, hk]

theorem type_of_saying {patterns : Pattern.Lexicon} {x : Saying} (h : t.saying patterns = .ok x) :
    x.kind = t.type?.map (·.1) ∧ x.format = t.type?.bind (·.2) := by
  by_cases henum : t.name = "enum"
  · obtain ⟨name, params⟩ := t
    subst henum
    cases h
    exact ⟨rfl, rfl⟩
  by_cases hname : t.name ∈ shapeRules
  · obtain ⟨name, params⟩ := t
    simp only [shapeRules, List.mem_cons, List.not_mem_nil, or_false] at hname
    rcases hname with rfl | rfl | rfl | rfl | rfl
    · cases h
      exact ⟨rfl, rfl⟩
    · unfold Token.saying at h
      dsimp only at h
      cases hgiven : given? ⟨"regex", params⟩ with
      | none =>
        rw [hgiven] at h
        cases h
        exact ⟨rfl, rfl⟩
      | some raw =>
        simp only [hgiven] at h
        cases hfound : Pattern.exampleFor patterns (Pattern.clean raw) with
        | error f => rw [hfound] at h; cases h
        | ok found =>
          rw [hfound] at h
          cases h
          exact ⟨rfl, rfl⟩
    · cases h
      exact ⟨rfl, rfl⟩
    · unfold Token.saying at h
      unfold Token.type?
      dsimp only at h ⊢
      cases hgiven : given? ⟨"digits", params⟩ with
      | none =>
        rw [hgiven] at h
        cases h
        exact ⟨rfl, rfl⟩
      | some n =>
        rw [hgiven] at h
        cases h
        exact ⟨rfl, rfl⟩
    · rcases params with _ | ⟨low, _ | ⟨high, rest⟩⟩
      · cases h
        exact ⟨rfl, rfl⟩
      · cases h
        exact ⟨rfl, rfl⟩
      · cases h
        exact ⟨rfl, rfl⟩
  · exact type_of_tableSaying hname (Token.saying_of_table henum hname ▸ h)

/-! ## The type of a field -/

/-- The type of a field by those that rules give it, the last one first. The last kind counts, and of the formats the
last one that has come since the kind was another. -/
def typeFrom : List (Kind × Option String) → Kind × Option String
  | [] => (.string, none)
  | (k, f) :: earlier => (k, (((k, f) :: earlier).takeWhile (·.1 = k)).findSome? (·.2))

/-- The type of a field with some rules. -/
def typeOf (tokens : List Token) : Kind × Option String := typeFrom (tokens.filterMap Token.type?).reverse

variable {types : List (Kind × Option String)}

/-- A state in which the field has the type that rules have given it. -/
structure State.Typed (s : State) (types : List (Kind × Option String)) : Prop where
  kind : s.kind = types.head?.map (·.1)
  format : s.format = (typeFrom types).2

theorem State.Typed.type (h : s.Typed types) :
    (s.kind.getD .string, s.format) = typeFrom types := by
  rw [h.kind, h.format]
  cases types <;> rfl

theorem State.Typed.withKind (h : s.Typed types) (k : Kind) (f : Option String) :
    (s.withKind (some k) f).Typed ((k, f) :: types) := by
  have hkind := h.kind
  have hformat := h.format
  unfold State.withKind
  rcases types with _ | ⟨⟨k', f'⟩, earlier⟩
  -- Before the first type the field has no kind, so that even a text takes over the format as it is.
  · have hother : (s.kind != some k) = true := by simp [hkind]
    simp only [hother, if_true]
    refine ⟨rfl, ?_⟩
    cases f <;> simp [typeFrom]
  · by_cases hk : k' = k
    · subst hk
      have hsame : (s.kind != some k') = false := by simp [hkind]
      simp only [hsame]
      refine ⟨hkind, ?_⟩
      cases f with
      | none => simpa [typeFrom] using hformat
      | some f => simp [typeFrom]
    · have hother : (s.kind != some k) = true := by simp [hkind, hk]
      simp only [hother, if_true]
      refine ⟨rfl, ?_⟩
      cases f <;> simp [typeFrom, hk]

theorem State.Typed.told (h : s.Typed types) {x : Saying} {type : Option (Kind × Option String)}
    (hkind : x.kind = type.map (·.1)) (hformat : x.format = type.bind (·.2)) :
    (s.told x).Typed (type.toList ++ types) := by
  have hsame : ∀ (s : State) (d : String), (s.describe d).kind = s.kind ∧ (s.describe d).format = s.format := by
    intro s d
    unfold State.describe
    split <;> exact ⟨rfl, rfl⟩
  have htold : (s.told x).kind = (s.withKind x.kind x.format).kind ∧
      (s.told x).format = (s.withKind x.kind x.format).format := hsame _ _
  have hwith : (s.withKind x.kind x.format).Typed (type.toList ++ types) := by
    rw [hkind, hformat]
    cases type with
    | none => exact h
    | some type => exact h.withKind type.1 type.2
  exact ⟨htold.1.trans hwith.kind, htold.2.trans hwith.format⟩

theorem typed_foldl {patterns : Pattern.Lexicon} {tokens : List Token} {xs : List Saying}
    (hxs : tokens.mapM (Token.saying patterns) = .ok xs) (h : s.Typed types) :
    (xs.foldl State.told s).Typed ((tokens.filterMap Token.type?).reverse ++ types) := by
  replace hxs := mapM_eq_ok_iff.1 hxs
  induction hxs generalizing s types with
  | nil => exact h
  | @cons t x tokens xs hx _ ih =>
    obtain ⟨hkind, hformat⟩ := type_of_saying hx
    have htold := ih (h.told hkind hformat)
    cases htype : t.type? with
    | none | some type => simpa [htype] using htold

theorem Token.type?_of_terms (h : t.isShape = false) : t.type? = none := by
  have hall : ∀ name ∈ flagRules ++ conditionalRules ++ boundRules ++ ["in"],
      name ∉ shapeRules ∧ (typeRules.get? name).isNone = true := by decide +kernel
  have hmem : t.name ∈ flagRules ++ conditionalRules ++ boundRules ++ ["in"] := by
    refine Decidable.byContradiction fun hname => ?_
    simp only [List.mem_append, List.mem_singleton, not_or] at hname
    rw [isShape_iff.2 ⟨hname.1.1.1, hname.1.1.2, hname.1.2, hname.2⟩] at h
    cases h
  rw [type?_of_table (hall _ hmem).1, Option.isNone_iff_eq_none.1 (hall _ hmem).2]
  rfl

theorem Token.type?_ne_union {type : Kind × Option String} (h : t.type? = some type) : type.1 ≠ .union := by
  have hall : ∀ e ∈ typeRules.values, e.kind ≠ some .union := by decide
  have hstring : Kind.string ≠ .union := by decide
  unfold type? at h
  split at h
  · cases h
    exact hstring
  · obtain ⟨_, _, rfl⟩ := Option.map_eq_some_iff.1 h
    exact hstring
  · split at h
    · cases h
      exact hstring
    · cases h
  · obtain ⟨e, hget, he⟩ := Option.bind_eq_some_iff.1 h
    obtain ⟨k, hk, rfl⟩ := Option.map_eq_some_iff.1 he
    rintro rfl
    exact hall e (Entries.mem_values hget) hk

/-! ## The node of a field -/

/-- Whether the bounds of a type are numbers of characters or items. -/
def isCounted : Kind × Option String → Bool
  | (.array, _) => true
  | (.scalar .string, format) => format != some "binary"
  | _ => false

/-- Whether a bound is missing or can be made whole. -/
def isFinite : Option Value → Bool
  | some (.float (.infinite _)) | some (.float .nan) => false
  | _ => true

theorem succeedsIff_wholeBound (v : Option Value) : SucceedsIff Fault.IsExcess (isFinite v = true) (wholeBound v) := by
  unfold wholeBound
  split
  · rename_i x
    cases x with
    | finite negative significand exponent => exact .ok rfl _
    | infinite negative => exact .error Bool.false_ne_true (.inl rfl)
    | nan => exact .error Bool.false_ne_true (.inr rfl)
  · rename_i hfloat
    refine .ok ?_ v
    unfold isFinite
    split
    · exact absurd rfl (hfloat _)
    · exact absurd rfl (hfloat _)
    · rfl

theorem succeedsIff_boundsOf (kind : Kind) (s : State) :
    SucceedsIff Fault.IsExcess (isCounted (kind, s.format) = true → isFinite s.lower = true ∧ isFinite s.upper = true)
      (boundsOf kind s) := by
  have hboth : ∀ g : Option Value → Option Value → Constraints,
      SucceedsIff Fault.IsExcess (isFinite s.lower = true ∧ isFinite s.upper = true) (do
        let least ← wholeBound s.lower
        let most ← wholeBound s.upper
        return g least most) := fun g =>
    (succeedsIff_wholeBound s.lower).bind fun least _ => (succeedsIff_wholeBound s.upper).map (g least)
  cases kind with
  | array => exact (hboth _).congr (by simp [isCounted])
  | object | union => exact .ok (by simp [isCounted]) _
  | scalar k =>
    cases k
    case string =>
      unfold boundsOf
      dsimp only
      split
      · rename_i hbinary
        exact .ok (by simp [isCounted, beq_iff_eq.1 hbinary]) _
      · rename_i hbinary
        exact (hboth _).congr (by simp [isCounted, beq_iff_eq.not.1 hbinary])
    all_goals exact .ok (by simp [isCounted]) _

theorem exists_build {kind : Kind} (hkind : kind ≠ .union) (facets : Facets) :
    ∃ n, Draft.build { kind, facets, items := if kind == .array then some Node.string else none } = .ok n := by
  cases kind with
  | union => exact absurd rfl hkind
  | _ => exact ⟨_, rfl⟩

theorem succeedsIff_node (hkind : s.kind ≠ some .union) (hspelled : s.enumValues.all Value.areSpelled = true) :
    SucceedsIff Problem.IsExcess
      (isCounted (s.kind.getD .string, s.format) = true → isFinite s.lower = true ∧ isFinite s.upper = true)
        s.node := by
  have hne : s.kind.getD .string ≠ .union := by
    cases hs : s.kind with
    | none => decide
    | some k =>
      rintro rfl
      exact hkind hs
  have hkeep : s.isSpelled (s.kind.getD .string) = true := by rw [State.isSpelled, hspelled, Bool.or_true]
  unfold State.node
  refine ((succeedsIff_boundsOf (s.kind.getD .string) s).liftBind (q := True) fun c _ => ?_).congr
    (Iff.of_eq (and_true _))
  obtain ⟨n, hn⟩ := exists_build hne _
  refine .inl ⟨trivial, n, ?_⟩
  rw [if_pos hkeep]
  exact congrArg (fun x : Except DraftError Node => (liftM x : Attempt Node)) hn

/-! ## Rules of a field -/

/-- The bound that rules set last. -/
def lastBound (bound? : Token → Option (Option Value)) (tokens : List Token) : Option Value :=
  (tokens.filterMap bound?).getLast?.getD none

theorem succeedsIff_stateAfter (characters : Pattern.Characters) (tokens : List Token) :
    SucceedsIff Fault.IsExcess (∀ t ∈ tokens, t.isDecided characters = true) (stateAfter { characters } {} tokens) := by
  have hsayings : SucceedsIff Fault.IsExcess (∀ t ∈ tokens.filter Token.isShape, t.isDecided characters = true)
      ((tokens.filter Token.isShape).mapM (Token.saying { characters })) :=
    .mapM fun t _ => succeedsIff_saying characters t
  -- Only a rule about the shape has a pattern.
  refine (hsayings.map _).congr ⟨fun h t ht => ?_, fun h t ht => h t (List.mem_filter.1 ht).1⟩
  by_cases hname : t.name = "regex"
  · refine h t (List.mem_filter.2 ⟨ht, ?_⟩)
    simp [Token.isShape_iff, hname, flagRules, conditionalRules, boundRules]
  · exact if_neg hname

theorem areSpelled_map_str (texts : List String) : Value.areSpelled (texts.map .str) = true := by
  induction texts with
  | nil => rfl
  | cons text texts ih => exact ih

/-- The values that rules allow are texts. -/
theorem spelled_foldl (tokens : List Token) {a : Terms} (h : a.enumValues.all Value.areSpelled = true) :
    (tokens.foldl Terms.after a).enumValues.all Value.areSpelled = true := by
  induction tokens generalizing a with
  | nil => exact h
  | cons t tokens ih =>
    refine ih ?_
    change (t.choices?.or a.enumValues).all Value.areSpelled = true
    unfold Token.choices?
    split
    · exact areSpelled_map_str t.params
    · exact h

/-- The state that rules leave has the type and the bounds that can be read off from them. -/
theorem typed_of_stateAfter {patterns : Pattern.Lexicon} {tokens : List Token}
    (h : stateAfter patterns {} tokens = .ok s) :
    s.Typed (tokens.filterMap Token.type?).reverse ∧ s.lower = lastBound Token.lower? tokens ∧
      s.upper = lastBound Token.upper? tokens ∧ s.enumValues.all Value.areSpelled = true := by
  unfold stateAfter at h
  cases hxs : (tokens.filter Token.isShape).mapM (Token.saying patterns) with
  | error f => rw [hxs] at h; cases h
  | ok xs =>
    rw [hxs] at h
    cases h
    have hshape : (tokens.filter Token.isShape).filterMap Token.type? = tokens.filterMap Token.type? := by
      rw [List.filterMap_filter]
      congr
      funext t
      cases ht : t.isShape with
      | true => rfl
      | false => exact (Token.type?_of_terms ht).symm
    have hstart : State.Typed {} [] := ⟨rfl, rfl⟩
    have htyped := typed_foldl hxs hstart
    rw [hshape, List.append_nil] at htyped
    exact ⟨⟨htyped.kind, htyped.format⟩, Terms.lower_foldl tokens _, Terms.upper_foldl tokens _,
      spelled_foldl tokens rfl⟩

theorem succeedsIff_interpretTokens (characters : Pattern.Characters) (tokens : List Token) :
    SucceedsIff Problem.IsExcess
      ((∀ t ∈ tokens, t.isDecided characters = true) ∧
        (isCounted (typeOf tokens) = true →
          isFinite (lastBound Token.lower? tokens) = true ∧ isFinite (lastBound Token.upper? tokens) = true))
      (interpretTokens (plainInterpreter { characters }) tokens) := by
  unfold interpretTokens
  rw [foldlM_apply_eq]
  refine (succeedsIff_stateAfter characters tokens).liftBind fun s hs => ?_
  obtain ⟨htyped, hlower, hupper, hspelled⟩ := typed_of_stateAfter hs
  have hkind : s.kind ≠ some .union := by
    rw [htyped.kind]
    intro hunion
    obtain ⟨type, htype, hk⟩ := Option.map_eq_some_iff.1 hunion
    obtain ⟨t, -, ht⟩ := List.mem_filterMap.1 (List.mem_reverse.1 (List.mem_of_head? htype))
    exact Token.type?_ne_union ht hk
  rw [typeOf, ← htyped.type, ← hlower, ← hupper]
  exact succeedsIff_node hkind hspelled

/-- With the usual tables, and whatever names characters have, rules that look nothing up have a node, unless a pattern
asks for more than can be counted or written out, or a bound of a text or an array is infinite or no number. -/
theorem interpret_ok_iff (characters : Pattern.Characters) (rules : Raw) :
    ((∃ n, interpret (m := Attempt) { patterns := { characters } } rules = .ok n) ↔
      (∀ t ∈ parse rules, t.isDecided characters = true) ∧
        (isCounted (typeOf (parse rules)) = true →
          isFinite (lastBound Token.lower? (parse rules)) = true ∧
            isFinite (lastBound Token.upper? (parse rules)) = true)) ∧
      ∀ p, interpret (m := Attempt) { patterns := { characters } } rules = .error p →
        p = .fault .overflow ∨ p = .fault .invalid := by
  have h := succeedsIff_interpretTokens characters (parse rules)
  exact ⟨h.exists_ok_iff, fun _ hp => h.of_error hp⟩

/-- Rules whose parameters make no sense. -/
def malformedRules : Raw := .elements (
  ["string", "min:many", "regex:[a", "between:9,1", "digits:", "size:1e999", "integer", "in:a,nan"].map .text)

theorem interpret_malformedRules : ∃ n, interpret (m := Attempt) {} malformedRules = .ok n :=
  (interpret_ok_iff Pattern.noCharacters malformedRules).1.2 (by decide +kernel)

/-- The fault that rules lead to. -/
def faultOf (rules : Raw) : Option Fault :=
  match interpret (m := Attempt) {} rules with
  | .error (.fault f) => some f
  | _ => none

/-- An infinite length, a length that is no number, more repetitions than can be counted, and more than can be written
out: braces around digits that are not those of ASCII repeat nothing, but the example follows them. -/
theorem interpret_out_of_range :
    faultOf (.line "min:inf") = some .overflow ∧ faultOf (.line "array|max:nan") = some .invalid ∧
      faultOf (.elements [.text "regex:a\x7b4294967295\x7d"]) = some .overflow ∧
      faultOf (.elements [.text "regex:a\x7b９９９９９９９９９９９９９９９９９９９９\x7d"]) = some .overflow := by
  decide +kernel

end Rule
end ApiSchema
