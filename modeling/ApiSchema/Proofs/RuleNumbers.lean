import ApiSchema.Proofs.RuleBounds
import ApiSchema.Proofs.WholeNumbers

/-!
# Whole numbers in rules

Every number of a rule is read as a double, and so is every value of an enumeration that a field with a number may have.
A whole number is therefore kept if and only if it is a double (`interpret_whole_iff`): all of them are up to 2 ^ 53,
and the next one is altered (`interpret_whole_altered`).
-/
namespace ApiSchema.Rule

open Text

/-! ## Numbers -/

variable {n : Int}

/-- A whole number is read as itself if it is a double, and else as another one or as an infinity. -/
theorem number?_toString (n : Int) :
    (Double.IsExact n ∧ number? (toString n) = some (.int n)) ∨
      (¬ Double.IsExact n ∧ ((∃ k, k ≠ n ∧ number? (toString n) = some (.int k)) ∨
        ∃ negative, number? (toString n) = some (.float (.infinite negative)))) := by
  have hread : number? (toString n) = some ((Double.ofRatio (decide (n < 0)) n.natAbs 1).toInt?.elim
      (.float (Double.ofRatio (decide (n < 0)) n.natAbs 1)) .int) := by
    rw [number?, Double.ofText?_toString]
    generalize Double.ofRatio (decide (n < 0)) n.natAbs 1 = x
    cases hx : x.toInt? <;> simp [hx]
  rcases Double.ofRatio_one (decide (n < 0)) n.natAbs with ⟨hlt, hint⟩ | ⟨hle, hinf⟩
  · rw [hint, Option.elim_some] at hread
    by_cases hnearest : Double.nearest n.natAbs = n.natAbs
    · refine .inl ⟨(Double.isExact_iff n).2 ⟨hnearest, hnearest ▸ hlt⟩, ?_⟩
      rw [hread, hnearest, Double.signed_natAbs]
    · refine .inr ⟨fun h => hnearest ((Double.isExact_iff n).1 h).1, .inl ⟨_, fun heq => hnearest ?_, hread⟩⟩
      rw [← Double.natAbs_signed (decide (n < 0)) (Double.nearest n.natAbs), heq]
  · refine .inr ⟨fun h => ?_, .inr ⟨decide (n < 0), ?_⟩⟩
    · obtain ⟨hnearest, hlt⟩ := (Double.isExact_iff n).1 h
      rw [hnearest] at hle
      exact Nat.not_le.2 hlt hle
    · rw [hread, hinf]
      rfl

theorem exists_number? (n : Int) : ∃ v, number? (toString n) = some v := by
  rcases number?_toString n with ⟨-, h⟩ | ⟨-, ⟨k, -, h⟩ | ⟨negative, h⟩⟩ <;> exact ⟨_, h⟩

theorem number?_eq_int_iff : number? (toString n) = some (.int n) ↔ Double.IsExact n := by
  rcases number?_toString n with ⟨hexact, h⟩ | ⟨hexact, ⟨k, hk, h⟩ | ⟨negative, h⟩⟩
  · exact iff_of_true h hexact
  · refine iff_of_false ?_ hexact
    rw [h]
    simpa using hk
  · refine iff_of_false ?_ hexact
    rw [h]
    simp

theorem wholeBound_eq_int_iff : wholeBound (number? (toString n)) = .ok (some (.int n)) ↔ Double.IsExact n := by
  rcases number?_toString n with ⟨hexact, h⟩ | ⟨hexact, ⟨k, hk, h⟩ | ⟨negative, h⟩⟩
  · exact iff_of_true (by rw [h]; rfl) hexact
  · refine iff_of_false ?_ hexact
    rw [h]
    simpa [wholeBound] using hk
  · refine iff_of_false ?_ hexact
    rw [h]
    simp [wholeBound, Double.truncate]

/-! ## Bounds -/

/-- A rule that bounds a field by whole numbers. -/
inductive WholeRule where
  | min (n : Int)
  | max (n : Int)
  | size (n : Int)
  | between (least most : Int)

namespace WholeRule

def text : WholeRule → String
  | min n => "min:" ++ toString n
  | max n => "max:" ++ toString n
  | size n => "size:" ++ toString n
  | between least most => "between:" ++ toString least ++ "," ++ toString most

def lower : WholeRule → Option Int
  | min n | size n | between n _ => some n
  | max _ => none

def upper : WholeRule → Option Int
  | max n | size n | between _ n => some n
  | min _ => none

def token : WholeRule → Token
  | min n => ⟨"min", [toString n]⟩
  | max n => ⟨"max", [toString n]⟩
  | size n => ⟨"size", [toString n]⟩
  | between least most => ⟨"between", [toString least, toString most]⟩

theorem isName_token (r : WholeRule) : Token.IsName r.token.name := by
  have hnames : ["min", "max", "size", "between"].all
      (fun name => Text.lower name == name && name.toList.all fun c => !isBlank c && c != ':') = true := by
        decide +kernel
  have hmem : r.token.name ∈ ["min", "max", "size", "between"] := by cases r <;> simp [token]
  have hname := List.all_eq_true.1 hnames _ hmem
  simp only [Bool.and_eq_true, beq_iff_eq, List.all_eq_true, Bool.not_eq_true', bne_iff_ne, ne_eq] at hname
  obtain ⟨hlower, hchars⟩ := hname
  refine ⟨hlower, ⟨fun c hc => ?_, fun c hc => ?_⟩, fun hcolon => (hchars _ hcolon).2 rfl⟩
  · exact (hchars c (List.mem_of_mem_head? hc)).1
  · exact (hchars c (List.mem_of_mem_getLast? hc)).1

theorem mem_params {r : WholeRule} {p : String} (h : p ∈ r.token.params) : ∃ n : Int, p = toString n := by
  cases r <;> simp only [token, List.mem_cons, List.not_mem_nil, or_false] at h
  case between => rcases h with rfl | rfl <;> exact ⟨_, rfl⟩
  all_goals exact ⟨_, h⟩

theorem parse_text (r : WholeRule) : Token.parse r.text = r.token := by
  have htext : r.text = r.token.text := by
    cases r with
    | between least most => simp [text, token, Token.text, join, String.append_assoc]
    | _ => rfl
  have hpieces : ∀ p ∈ r.token.params, strip p = p ∧ ',' ∉ p.toList := by
    intro p hp
    obtain ⟨n, rfl⟩ := mem_params hp
    refine ⟨strip_toString n, fun hcomma => ?_⟩
    rcases mem_toString hcomma with h | h <;> cases h
  have hsplit : r.token.name ∉ unsplitRules := by cases r <;> simp [token, unsplitRules]
  rw [htext]
  exact Token.parse_text_of_isNormal ⟨r.isName_token, fun h => absurd h hsplit, fun _ => hpieces⟩

end WholeRule

/-- The rules for the kinds of fields that can be bounded. -/
def boundedKinds : List String := ["integer", "numeric", "string", "array"]

theorem parse_line_pair {s b : String} (hs : '|' ∉ s.toList) (hb : '|' ∉ b.toList) (hclosed : isOpen s = false)
    (hsblank : isBlankText s = false) (hbblank : isBlankText b = false) :
    parse (.line (s ++ "|" ++ b)) = [Token.parse s, Token.parse b] := by
  have hopen : ∀ u v, s = u ++ "|" ++ v → isOpen u = true := by
    rintro u v rfl
    simp at hs
  have hsplit : split '|' b = [b] := @split_join '|' "|" [b] rfl (by simpa using hb) (by simp)
  have hlast : splitPipes b = [b] := by
    rw [splitPipes, hsplit]
    cases hb : isOpen b <;> simp [mergeFrom, hb]
  rw [parse, parseLine, splitPipes_append hopen hclosed, hlast]
  simp [hsblank, hbblank]

theorem parse_line_whole {kind : String} (hkind : kind ∈ boundedKinds) (r : WholeRule) :
    parse (.line (kind ++ "|" ++ r.text)) = [⟨kind, []⟩, r.token] := by
  have hkinds : boundedKinds.all (fun kind => decide ('|' ∉ kind.toList) && !isOpen kind && !isBlankText kind &&
      Token.parse kind == ⟨kind, []⟩) = true := by decide +kernel
  have hplain := List.all_eq_true.1 hkinds kind hkind
  simp only [Bool.and_eq_true, decide_eq_true_eq, Bool.not_eq_true', beq_iff_eq] at hplain
  obtain ⟨⟨⟨hpipe, hclosed⟩, hblank⟩, hparse⟩ := hplain
  have hnumber : ∀ n : Int, '|' ∉ (toString n).toList := by
    intro n hn
    rcases mem_toString hn with h | h <;> cases h
  have hpipe' : '|' ∉ r.text.toList := by
    cases r <;> simp only [WholeRule.text, String.toList_append, List.mem_append, not_or]
    case between => exact ⟨⟨⟨by decide, hnumber _⟩, by decide⟩, hnumber _⟩
    all_goals exact ⟨by decide, hnumber _⟩
  have hblank' : isBlankText r.text = false := by
    refine isBlankText_eq_false (c := ':') (by decide) ?_
    cases r <;> simp [WholeRule.text]
  rw [parse_line_pair hpipe hpipe' hclosed hblank hblank', hparse, r.parse_text]

/-- The kinds whose bounds are those of their rules. -/
def boundedNodeKinds : List Kind := [.integer, .number, .string, .array]

/-- The bounds that a node shows, as its kind does. -/
def boundsIn (n : Node) : Option Value × Option Value :=
  match n.kind with
  | .array => ((constraintsOf n).minItems, (constraintsOf n).maxItems)
  | .scalar .string => ((constraintsOf n).minLength, (constraintsOf n).maxLength)
  | _ => ((constraintsOf n).minimum, (constraintsOf n).maximum)

/-- A bound as a kind shows it. -/
def shownBound (kind : Kind) (v : Option Value) : Except Fault (Option Value) :=
  if kind.isNumeric then .ok v else wholeBound v

theorem shownBound_boundsIn {s : State} {n : Node} (h : s.node = .ok n) (hkind : n.kind ∈ boundedNodeKinds)
    (hformat : s.format = none) :
    shownBound n.kind s.lower = .ok (boundsIn n).1 ∧ shownBound n.kind s.upper = .ok (boundsIn n).2 := by
  have hbounded := bounded_of_node h
  simp only [boundedNodeKinds, List.mem_cons, List.not_mem_nil, or_false] at hkind
  rcases hkind with hk | hk | hk | hk
  · obtain ⟨hl, hu⟩ := hbounded.number (by rw [hk]; rfl)
    simp only [boundsIn, hk, hl, hu]
    exact ⟨rfl, rfl⟩
  · obtain ⟨hl, hu⟩ := hbounded.number (by rw [hk]; rfl)
    simp only [boundsIn, hk, hl, hu]
    exact ⟨rfl, rfl⟩
  · have hplain : n.facets.format ≠ some (.str "binary") := by
      rw [State.format_of_node h hk, hformat]
      exact nofun
    obtain ⟨hl, hu⟩ := hbounded.text hk hplain
    simp only [boundsIn, hk]
    exact ⟨hl, hu⟩
  · obtain ⟨hl, hu⟩ := hbounded.array hk
    simp only [boundsIn, hk]
    exact ⟨hl, hu⟩

/-- What is read of whole numbers. -/
def readWhole (a : Option Int) : Option Value := a.bind fun n => number? (toString n)

theorem shownBound_readWhole_iff (kind : Kind) (a : Option Int) :
    shownBound kind (readWhole a) = .ok (a.map .int) ↔ ∀ n ∈ a, Double.IsExact n := by
  cases a with
  | none => exact iff_of_true (by unfold shownBound; split <;> rfl) (by simp)
  | some n =>
    rw [readWhole, Option.bind_some, Option.map_some, shownBound]
    simp only [Option.mem_some_iff, forall_eq']
    split
    · rw [Except.ok.injEq]
      exact number?_eq_int_iff
    · exact wholeBound_eq_int_iff

theorem isNumeric_of_isCounted {type : Kind × Option String} (h : isCounted type = true) :
    type.1.isNumeric = false := by
  obtain ⟨kind, format⟩ := type
  cases kind with
  | scalar k => cases k <;> first | rfl | cases h
  | _ => rfl

/-- A node shows whole numbers as its bounds if and only if they are doubles. -/
theorem exists_node_iff {s : State} {kind : Kind} {a b : Option Int} (hkind : s.kind = some kind)
    (hmem : kind ∈ boundedNodeKinds) (hformat : s.format = none) (hlower : s.lower = readWhole a)
    (hupper : s.upper = readWhole b) (hvalues : s.enumValues = none) :
    (∃ n, s.node = .ok n ∧ boundsIn n = (a.map .int, b.map .int)) ↔
      (∀ n ∈ a, Double.IsExact n) ∧ ∀ n ∈ b, Double.IsExact n := by
  rw [← shownBound_readWhole_iff kind a, ← shownBound_readWhole_iff kind b, ← hlower, ← hupper]
  have hnode : ∀ n, s.node = .ok n → n.kind = kind := by
    intro n hn
    obtain ⟨c, -, hk, -⟩ := State.exists_of_node hn
    rw [hk, hkind]
    rfl
  constructor
  · rintro ⟨n, hn, hbounds⟩
    have hk := hnode n hn
    have hshown := shownBound_boundsIn hn (hk ▸ hmem) hformat
    rwa [hk, hbounds] at hshown
  · rintro ⟨hl, hu⟩
    have hunion : s.kind ≠ some .union := by
      rw [hkind]
      rintro h
      cases h
      exact absurd hmem (by decide)
    have hfinite : isCounted (s.kind.getD .string, s.format) = true → isFinite s.lower = true ∧
        isFinite s.upper = true := by
      intro hcounted
      rw [hkind] at hcounted
      have hwhole : kind.isNumeric = false := isNumeric_of_isCounted hcounted
      rw [shownBound, hwhole, if_neg Bool.false_ne_true] at hl hu
      exact ⟨(succeedsIff_wholeBound _).exists_ok_iff.1 ⟨_, hl⟩, (succeedsIff_wholeBound _).exists_ok_iff.1 ⟨_, hu⟩⟩
    obtain ⟨n, hn⟩ := (succeedsIff_node hunion (hvalues ▸ rfl)).exists_ok_iff.2 hfinite
    have hk := hnode n hn
    obtain ⟨hshown, hshown'⟩ := shownBound_boundsIn hn (hk ▸ hmem) hformat
    rw [hk, hl] at hshown
    rw [hk, hu] at hshown'
    refine ⟨n, hn, ?_⟩
    rw [Except.ok.inj hshown, Except.ok.inj hshown']

section

variable {σ : Type} {table : Table} {patterns : Pattern.Lexicon} {enums : EnumLookup (Over σ)} {l : σ}

theorem WholeRule.lower?_token (r : WholeRule) : r.token.lower?.getD none = readWhole r.lower := by
  have hsome : ∀ x : Option Value, (x.map some).getD none = x := fun x => by cases x <;> rfl
  cases r
  case max => rfl
  all_goals simp only [WholeRule.token, WholeRule.lower, Token.lower?, Token.first?, List.head?_cons, Option.bind_some,
    readWhole, hsome, Option.getD_some]

theorem WholeRule.upper?_token (r : WholeRule) : r.token.upper?.getD none = readWhole r.upper := by
  have hsome : ∀ x : Option Value, (x.map some).getD none = x := fun x => by cases x <;> rfl
  cases r
  case min => rfl
  all_goals simp only [WholeRule.token, WholeRule.upper, Token.upper?, Token.first?, List.head?_cons, Option.bind_some,
    readWhole, hsome, Option.getD_some]

theorem result_apply_of_ne {s : State} {t : Token} (h : t.name ≠ "enum") :
    result (apply ⟨table, patterns, enums⟩ s t) l = applyPlain table patterns s t := by
  rw [apply, if_neg (by simpa using h)]
  rfl

/-- A rule for the kind and a rule with whole numbers leave only these behind. -/
theorem exists_foldlM_whole {kind : String} (hkind : kind ∈ boundedKinds) (r : WholeRule) :
    ∃ k ∈ boundedNodeKinds, result ([⟨kind, []⟩, r.token].foldlM (apply ⟨{}, patterns, enums⟩) {}) l =
      .ok { kind := some k, lower := readWhole r.lower, upper := readWhole r.upper } := by
  have hbounds : ∀ (k : Kind) (l : σ), result (apply ⟨{}, patterns, enums⟩ { kind := some k } r.token) l =
      .ok { kind := some k, lower := readWhole r.lower, upper := readWhole r.upper } := by
    intro k l
    have hname : r.token.name ∈ boundRules := by cases r <;> simp [WholeRule.token, boundRules]
    have henum : r.token.name ≠ "enum" := by cases r <;> simp [WholeRule.token]
    rw [result_apply_of_ne henum, applyPlain_bound hname, Terms.after_bound hname, ← r.lower?_token, ← r.upper?_token]
    rfl
  have hkinds : ∃ k ∈ boundedNodeKinds, applyPlain {} patterns {} ⟨kind, []⟩ = .ok { kind := some k } := by
    simp only [boundedKinds, List.mem_cons, List.not_mem_nil, or_false] at hkind
    rcases hkind with rfl | rfl | rfl | rfl
    · exact ⟨.integer, by decide, rfl⟩
    · exact ⟨.number, by decide, rfl⟩
    · exact ⟨.string, by decide, rfl⟩
    · exact ⟨.array, by decide, rfl⟩
  have henum : kind ≠ "enum" := by
    rintro rfl
    exact absurd hkind (by decide)
  obtain ⟨k, hk, hplain⟩ := hkinds
  refine ⟨k, hk, ?_⟩
  rw [List.foldlM_cons, result_bind, result_apply_of_ne henum, hplain]
  dsimp only
  rw [List.foldlM_cons, result_bind, hbounds]
  rfl

/-- The rules of a field record whole numbers as its bounds. -/
def Records (i : Interpreter (Over σ)) (l : σ) (rules : Raw) (lower upper : Option Int) : Prop :=
  ∃ n, result (interpret i rules) l = .ok n ∧ boundsIn n = (lower.map .int, upper.map .int)

theorem records_whole_iff {kind : String} (hkind : kind ∈ boundedKinds) (r : WholeRule) :
    Records ⟨{}, patterns, enums⟩ l (.line (kind ++ "|" ++ r.text)) r.lower r.upper ↔
      (∀ n ∈ r.lower, Double.IsExact n) ∧ ∀ n ∈ r.upper, Double.IsExact n := by
  obtain ⟨k, hk, hstate⟩ := @exists_foldlM_whole σ patterns enums l kind hkind r
  rw [Records, interpret, parse_line_whole hkind, interpretTokens, result_bind, hstate]
  exact exists_node_iff rfl hk rfl rfl rfl rfl

/-! ## Enumerations -/

/-- A rule that lists whole numbers: as its parameters, or as an enumeration that is found. -/
inductive Lists (enums : EnumLookup (Over σ)) : Token → List Int → Prop
  | choice (ns : List Int) : Lists enums ⟨"in", ns.map toString⟩ ns
  | enumeration {lookup : String → Over σ (Option (List Value))} {t : Token} {name : String}
      {ns : List Int} (hlookup : enums = some lookup) (ht : t.name = "enum") (hname : given? t = some name)
      (hne : ns ≠ []) (hfound : ∀ l, result (lookup name) l = .ok (some (ns.map .int))) : Lists enums t ns

theorem numberOrSelf_str (n : Int) : numberOrSelf (.str (toString n)) = numberOrSelf (.int n) := by
  obtain ⟨v, hv⟩ := exists_number? n
  have hint : numberOrSelf (.int n) = (number? (toString n)).getD (.int n) := rfl
  have hstr : numberOrSelf (.str (toString n)) = (number? (toString n)).getD (.str (toString n)) := rfl
  rw [hint, hstr, hv]
  rfl

theorem numberOrSelf_int_iff : numberOrSelf (.int n) = .int n ↔ Double.IsExact n := by
  obtain ⟨v, hv⟩ := exists_number? n
  have hint : numberOrSelf (.int n) = (number? (toString n)).getD (.int n) := rfl
  rw [← number?_eq_int_iff, hint, hv, Option.getD_some, Option.some.injEq]

theorem enumValues_withEnum (s : State) (values : List Value) : (withEnum s values).enumValues = some values := by
  unfold withEnum
  dsimp only
  split
  · exact congrArg Terms.enumValues (State.terms_withKind _ _ _)
  · split
    · exact congrArg Terms.enumValues (State.terms_withKind _ _ _)
    · rfl

theorem enumValues_apply_of_lists {s s' : State} {t : Token} {ns : List Int} (h : Lists enums t ns)
    (hs : result (apply ⟨table, patterns, enums⟩ s t) l = .ok s') :
    s'.enumValues.map (·.map numberOrSelf) = some (ns.map fun n => numberOrSelf (.int n)) := by
  cases h with
  | choice ns =>
    have hname : "in" ≠ "enum" := by decide
    rw [result_apply_of_ne hname] at hs
    have hvalues : s'.enumValues = some ((ns.map toString).map .str) :=
      congrArg Terms.enumValues (terms_applyPlain hname hs)
    simp only [hvalues, Option.map_some, List.map_map, Function.comp_def, numberOrSelf_str]
  | enumeration hlookup ht hname hne hfound =>
    obtain ⟨k, ks, rfl⟩ := List.exists_cons_of_ne_nil hne
    subst hlookup
    rw [apply, if_pos (by simp [ht])] at hs
    simp only [hname] at hs
    rw [result_bind, hfound] at hs
    cases hs
    rw [enumValues_withEnum]
    simp

/-- Other rules leave the values of an enumeration as they are. -/
theorem enumValues_foldlM {s s' : State} {tokens : List Token} (h : ∀ t ∈ tokens, t.name ≠ "in" ∧ t.name ≠ "enum")
    (hs : result (tokens.foldlM (apply ⟨table, patterns, enums⟩) s) l = .ok s') : s'.enumValues = s.enumValues := by
  induction tokens generalizing s l with
  | nil =>
    cases hs
    rfl
  | cons t tokens ih =>
    obtain ⟨hin, henum⟩ := h t List.mem_cons_self
    rw [List.foldlM_cons, result_bind, result_apply_of_ne henum] at hs
    cases hplain : applyPlain table patterns s t with
    | error p => rw [hplain] at hs; cases hs
    | ok s₁ =>
      rw [hplain] at hs
      have hkept : s₁.enumValues = s.enumValues := by
        have hterms := congrArg Terms.enumValues (terms_applyPlain henum hplain)
        rw [Terms.after, Token.choices?_eq_none hin] at hterms
        exact hterms
      rw [ih (fun u hu => h u (List.mem_cons_of_mem t hu)) hs, hkept]

theorem enumValues_of_node {s : State} {n : Node} (h : s.node = .ok n) (hkind : n.kind.isNumeric = true) :
    n.facets.enumValues = s.enumValues.map (·.map numberOrSelf) := by
  obtain ⟨c, -, -, hfacets⟩ := State.exists_of_node h
  obtain ⟨sentences, hsized, -⟩ := s.exists_sized n.kind
  rw [hfacets, hsized]
  exact if_pos hkind

end

/-- A whole number in a rule is recorded as it is if and only if it is a double: as a bound of a number, and of the
length of a text or an array, and as a value that a rule or an enumeration lists for a number. -/
theorem interpret_whole_iff {σ : Type} (table : Table) (patterns : Pattern.Lexicon)
    (enums : EnumLookup (ExceptT Problem (StateM σ))) (l : σ) :
    (∀ kind ∈ boundedKinds, ∀ r : WholeRule, Records ⟨{}, patterns, enums⟩ l
      (.line (kind ++ "|" ++ r.text)) r.lower r.upper ↔
      (∀ n ∈ r.lower, Double.IsExact n) ∧ ∀ n ∈ r.upper, Double.IsExact n) ∧
    (∀ (before rest : List Token) (t : Token) (ns : List Int) (n : Node), Lists enums t ns →
      (∀ u ∈ rest, u.name ≠ "in" ∧ u.name ≠ "enum") →
      result (interpret ⟨table, patterns, enums⟩ (.elements ((before ++ t :: rest).map .token))) l = .ok n →
      n.kind.isNumeric = true → (n.facets.enumValues = some (ns.map .int) ↔ ∀ k ∈ ns, Double.IsExact k)) := by
  refine ⟨fun kind hkind r => records_whole_iff hkind r, ?_⟩
  intro before rest t ns n hlists hrest hn hkind
  rw [interpret, parse_tokens, interpretTokens] at hn
  obtain ⟨s, hs, hnode⟩ := exists_of_result_bind hn
  rw [List.foldlM_append] at hs
  obtain ⟨s₁, -, hs⟩ := exists_of_result_bind hs
  rw [List.foldlM_cons] at hs
  obtain ⟨s₂, hlisted, hs⟩ := exists_of_result_bind hs
  rw [enumValues_of_node hnode hkind, enumValues_foldlM hrest hs, enumValues_apply_of_lists hlists hlisted,
    Option.some.injEq]
  rw [List.map_inj_left]
  exact forall₂_congr fun k _ => numberOrSelf_int_iff

/-- An enumeration with a value beyond 2 ^ 53 that is a double. -/
def statusEnum : EnumLookup (Over Unit) :=
  some fun _ => pure (some [.int 1, .int 1152921504606846976])

/-- Rules that list the values of an enumeration for a number. -/
def statusRules : List Token := [⟨"in", ["3"]⟩, ⟨"enum", ["Status"]⟩, ⟨"required", []⟩, ⟨"numeric", []⟩]

theorem interpret_whole_iff_powers :
    Records ⟨{}, {}, statusEnum⟩ () (.line "array|between:-3,1180591620717411303424") (some (-3))
      (some 1180591620717411303424) ∧
    ∃ n, result (interpret ⟨{}, {}, statusEnum⟩ (.elements (statusRules.map .token))) () = .ok n ∧
      n.facets.enumValues = some [.int 1, .int 1152921504606846976] := by
  obtain ⟨hbounds, hvalues⟩ := interpret_whole_iff {} {} statusEnum ()
  constructor
  · have hline : "array|between:-3,1180591620717411303424" =
        "array" ++ "|" ++ (WholeRule.between (-3) 1180591620717411303424).text := by decide +kernel
    rw [hline]
    refine (hbounds "array" (by decide) (.between (-3) 1180591620717411303424)).2 ⟨fun n hn => ?_, fun n hn => ?_⟩
    · cases hn
      exact ⟨3, 0, by decide, by decide, by decide⟩
    · cases hn
      exact ⟨1, 70, by decide, by decide, by decide⟩
  · have hkind : (result (interpret ⟨{}, {}, statusEnum⟩ (.elements (statusRules.map .token))) ()).toOption.map
        (·.kind.isNumeric) = some true := by decide +kernel
    cases hn : result (interpret ⟨{}, {}, statusEnum⟩ (.elements (statusRules.map .token))) () with
    | error p => simp [hn, Except.toOption] at hkind
    | ok n =>
      have hnumeric : n.kind.isNumeric = true := by simpa [hn, Except.toOption] using hkind
      have hlists : Lists statusEnum ⟨"enum", ["Status"]⟩ [1, 1152921504606846976] :=
        .enumeration rfl rfl rfl (by decide) fun l => rfl
      refine ⟨n, rfl,
        (hvalues [⟨"in", ["3"]⟩] [⟨"required", []⟩, ⟨"numeric", []⟩] _ _ n hlists (by decide) hn hnumeric).2 ?_⟩
      intro k hk
      simp only [List.mem_cons, List.not_mem_nil, or_false] at hk
      rcases hk with rfl | rfl
      · exact Double.isExact_of_le (by decide)
      · exact ⟨1, 60, by decide, by decide, by decide⟩

/-- The values that the rules of a text allow, as texts. -/
def valuesShown (rules : String) : Option (List String) := do
  let n ← (nodeOf (.line rules)).toOption
  return (← n.facets.enumValues).map Value.text

/-- The number after 2 ^ 53 becomes 2 ^ 53, as a bound and as a value. -/
theorem interpret_whole_altered :
    boundsShown "integer|min:9007199254740993" = some (some "9007199254740992", none) ∧
      valuesShown "integer|in:9007199254740993,1" = some ["9007199254740992", "1"] := by
  decide +kernel

end ApiSchema.Rule
