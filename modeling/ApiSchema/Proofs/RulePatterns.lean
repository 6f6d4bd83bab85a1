import ApiSchema.Proofs.RuleGroups

/-!
# Patterns and examples of rules

The rules of a field set its pattern and its example apart from each other. The pattern is that of the last rule that
sets one (`recordedPattern`): a regular expression, a number of digits or a table of letters. The example is that of the
last regular expression that has one, and it was checked against that expression, cleaned twice (`sampledPattern`).

So an example fits the pattern that it stands beside if the two are the same (`fits_of_interpret`). They need not be: a
later rule can set another pattern, and what is left of an expression can look as if it had delimiters again
(`interpret_not_fits`).
-/
namespace ApiSchema

/-- Whether the pattern that a text writes matches another text as a whole. -/
def Pattern.fits (pattern text : String) (characters : Pattern.Characters := Pattern.noCharacters) : Bool :=
  match Pattern.read pattern characters with
  | .ok p => (p.fullMatch text).toOption.getD false
  | .error _ => false

theorem Pattern.fits_of_firstMatch? {text sample : String} {characters : Characters} {p : Pattern}
    (hp : Pattern.read text characters = .ok p) {candidates : List String}
    (h : Pattern.firstMatch? p candidates = .ok (some sample)) : Pattern.fits text sample characters = true := by
  induction candidates with
  | nil => cases h
  | cons c cs ih =>
    unfold Pattern.firstMatch? at h
    cases hm : p.fullMatch c with
    | error f => rw [hm] at h; cases h
    | ok b =>
      rw [hm] at h
      cases b with
      | false => exact ih h
      | true =>
        cases h
        simp [Pattern.fits, hp, hm, Except.toOption]

/-- An example is one of the pattern without delimiters. -/
theorem Pattern.fits_of_exampleFor {patterns : Pattern.Lexicon} {text sample : String}
    (h : Pattern.exampleFor patterns text = .ok (some sample)) :
    Pattern.fits (Pattern.clean text) sample patterns.characters = true := by
  unfold Pattern.exampleFor at h
  dsimp only at h
  split at h
  · cases h
  · cases h
  · rename_i p hp
    cases hbuild : Pattern.build? (Pattern.clean text) patterns.samples with
    | error e => rw [hbuild] at h; cases h
    | ok built =>
      rw [hbuild] at h
      exact fits_of_firstMatch? hp h

namespace Rule

/-! ## What a rule sets -/

/-- The pattern that a rule sets. -/
def Token.pattern? (t : Token) : Option String :=
  match t.name with
  | "regex" => (given? t).map Pattern.clean
  | "digits" => (given? t).map fun n => "^\\d\x7b" ++ n ++ "\x7d$"
  | "digits_between" =>
    match t.params with
    | low :: high :: _ => some ("^\\d\x7b" ++ low ++ "," ++ high ++ "\x7d$")
    | _ => none
  | name => ((typeRules.get? name).bind (·.pattern)).filter (!·.isEmpty)

/-- The pattern that a rule makes an example for, and the example. -/
def Token.sample? (patterns : Pattern.Lexicon) (t : Token) : Option (String × String) :=
  if t.name == "regex" then
    (given? t).bind fun raw =>
      match Pattern.exampleFor patterns (Pattern.clean raw) with
      | .ok (some e) => some (Pattern.clean (Pattern.clean raw), e)
      | _ => none
  else none

/-- The pattern of the last rule that sets one. -/
def recordedPattern (tokens : List Token) : Option String := (tokens.filterMap Token.pattern?).getLast?

/-- The example of the last rule that gives one, under the pattern that it was made for. -/
def lastSample (patterns : Pattern.Lexicon) (tokens : List Token) : Option (String × String) :=
  (tokens.filterMap (Token.sample? patterns)).getLast?

/-- The pattern that the example was made for. -/
def sampledPattern (patterns : Pattern.Lexicon) (tokens : List Token) : Option String :=
  (lastSample patterns tokens).map (·.1)

/-- What a rule leaves of the pattern and the example. -/
structure Leaves (patterns : Pattern.Lexicon) (t : Token) (s s' : State) : Prop where
  pattern : s'.pattern = t.pattern?.or s.pattern
  sample : s'.sample = ((t.sample? patterns).map (·.2)).or s.sample

variable {patterns : Pattern.Lexicon} {s s' : State} {t : Token}

@[simp]
theorem State.pattern_describe (s : State) (text : String) : (s.describe text).pattern = s.pattern := by
  unfold State.describe
  split <;> rfl

@[simp]
theorem State.sample_describe (s : State) (text : String) : (s.describe text).sample = s.sample := by
  unfold State.describe
  split <;> rfl

@[simp]
theorem State.pattern_withKind (s : State) (kind : Option Kind) (format : Option String) :
    (s.withKind kind format).pattern = s.pattern := by
  unfold State.withKind
  repeat' split
  all_goals rfl

@[simp]
theorem State.sample_withKind (s : State) (kind : Option Kind) (format : Option String) :
    (s.withKind kind format).sample = s.sample := by
  unfold State.withKind
  repeat' split
  all_goals rfl

theorem sample?_of_ne (h : t.name ≠ "regex") : t.sample? patterns = none := by
  simp [Token.sample?, h]

theorem pattern?_of_ne (hr : t.name ≠ "regex") (hd : t.name ≠ "digits") (hb : t.name ≠ "digits_between") :
    t.pattern? = ((typeRules.get? t.name).bind (·.pattern)).filter (!·.isEmpty) := by
  unfold Token.pattern?
  split
  · exact absurd ‹_› hr
  · exact absurd ‹_› hd
  · exact absurd ‹_› hb
  · rfl

/-- Names of rules that set no pattern. -/
def isPatternless (name : String) : Bool :=
  name != "regex" && name != "digits" && name != "digits_between" && (typeRules.get? name).isNone

theorem Leaves.of_patternless {name : String} (hname : t.name = name) (h : isPatternless name = true)
    (hp : s'.pattern = s.pattern) (hs : s'.sample = s.sample) : Leaves patterns t s s' := by
  subst hname
  simp only [isPatternless, Bool.and_eq_true, bne_iff_ne, Option.isNone_iff_eq_none] at h
  obtain ⟨⟨⟨hr, hd⟩, hb⟩, hget⟩ := h
  exact ⟨by simp [pattern?_of_ne hr hd hb, hget, hp], by simp [sample?_of_ne hr, hs]⟩

theorem patternless_of_isShape (h : t.isShape = false) : isPatternless t.name = true := by
  have hall : ∀ name ∈ flagRules ++ conditionalRules ++ boundRules ++ ["in"], isPatternless name = true := by decide
  refine hall _ (Classical.byContradiction fun hnot => ?_)
  simp only [List.mem_append, List.mem_singleton, not_or, and_assoc] at hnot
  rw [Token.isShape_iff.2 hnot] at h
  cases h

theorem State.pattern_told (s : State) (x : Saying) : (s.told x).pattern = x.pattern.or s.pattern := by
  simp [told]

theorem State.sample_told (s : State) (x : Saying) : (s.told x).sample = x.sample.or s.sample := by
  simp [told]

theorem of_tableSaying {x : Saying} (h : t.tableSaying = .ok x) :
    x.pattern = ((typeRules.get? t.name).bind (·.pattern)).filter (!·.isEmpty) ∧ x.sample = none := by
  unfold Token.tableSaying at h
  dsimp only at h
  cases hget : typeRules.get? t.name with
  | none =>
    rw [hget] at h
    cases h
    exact ⟨rfl, rfl⟩
  | some effect =>
    rw [hget] at h
    dsimp only [Effect.saying] at h
    cases hd : effect.description.filter (!·.isEmpty) with
    | none =>
      rw [hd] at h
      cases h
      exact ⟨rfl, rfl⟩
    | some d =>
      rw [hd, Option.elim_some] at h
      cases hf : Text.fill d "params" (Text.join ", " t.params) with
      | error f => rw [hf] at h; cases h
      | ok text =>
        rw [hf] at h
        cases h
        exact ⟨rfl, rfl⟩

theorem of_saying {x : Saying} (h : t.saying patterns = .ok x) :
    x.pattern = t.pattern? ∧ x.sample = (t.sample? patterns).map (·.2) := by
  obtain ⟨name, params⟩ := t
  unfold Token.saying at h
  dsimp only at h
  split at h
  · cases h
    exact ⟨rfl, rfl⟩
  · cases h
    exact ⟨rfl, rfl⟩
  · cases hraw : given? ⟨"regex", params⟩ with
    | none =>
      rw [hraw] at h
      cases h
      simp [Token.pattern?, Token.sample?, hraw]
    | some raw =>
      rw [hraw] at h
      dsimp only at h
      cases he : Pattern.exampleFor patterns (Pattern.clean raw) with
      | error f => rw [he] at h; cases h
      | ok found =>
        rw [he] at h
        cases h
        cases found <;> simp [Token.pattern?, Token.sample?, hraw, he]
  · cases h
    exact ⟨rfl, rfl⟩
  · cases hn : given? ⟨"digits", params⟩ with
    | none =>
      rw [hn] at h
      cases h
      simp [Token.pattern?, Token.sample?, hn]
    | some n =>
      rw [hn] at h
      cases h
      simp [Token.pattern?, Token.sample?, hn]
  · rcases params with _ | ⟨low, _ | ⟨high, rest⟩⟩ <;> cases h <;> exact ⟨rfl, rfl⟩
  · rename_i hregex _ hdigits hbetween
    obtain ⟨hpattern, hsample⟩ := of_tableSaying h
    rw [pattern?_of_ne hregex hdigits hbetween, sample?_of_ne hregex, hpattern, hsample]
    exact ⟨rfl, rfl⟩

theorem leaves_applyPlain (henum : t.name ≠ "enum") (h : applyPlain {} patterns s t = .ok s') :
    Leaves patterns t s s' := by
  cases hshape : t.isShape with
  | false =>
    rw [applyPlain_terms hshape] at h
    cases h
    exact .of_patternless rfl (patternless_of_isShape hshape) rfl rfl
  | true =>
    rw [applyPlain_shape hshape henum] at h
    cases hx : t.saying patterns with
    | error f => rw [hx] at h; cases h
    | ok x =>
      rw [hx] at h
      cases h
      obtain ⟨hpattern, hsample⟩ := of_saying hx
      exact ⟨hpattern ▸ s.pattern_told x, hsample ▸ s.sample_told x⟩

/-! ## What the rules of a field leave -/

theorem leaves_withEnum (hname : t.name = "enum") (values : List Value) : Leaves patterns t s (withEnum s values) := by
  refine .of_patternless hname (by decide) ?_ ?_
  · unfold withEnum
    dsimp only
    repeat' split
    all_goals simp
  · unfold withEnum
    dsimp only
    repeat' split
    all_goals simp

section

variable {σ : Type} {enums : EnumLookup (Over σ)}

/-- A rule leaves the same of the pattern and the example whatever is looked up for it. -/
theorem leaves_apply {l : σ} (h : result (apply ⟨{}, patterns, enums⟩ s t) l = .ok s') : Leaves patterns t s s' := by
  unfold apply at h
  split at h
  · rename_i hname
    have hname := beq_iff_eq.1 hname
    have hplain : Leaves patterns t s (s.describe enumSentence) := .of_patternless hname (by decide) (by simp) (by simp)
    split at h
    · rename_i lookup name _ _
      obtain ⟨found, -, h⟩ := exists_of_result_bind h
      split at h
      · cases h
        exact leaves_withEnum hname _
      · cases h
        exact hplain
    · cases h
      exact hplain
  · rename_i hname
    exact leaves_applyPlain (by simpa using hname) h

/-- After all rules, the last pattern and the last example count. -/
theorem foldlM_apply {tokens : List Token} {l : σ}
    (h : result (tokens.foldlM (apply ⟨{}, patterns, enums⟩) s) l = .ok s') :
    s'.pattern = (recordedPattern tokens).or s.pattern ∧
      s'.sample = ((lastSample patterns tokens).map (·.2)).or s.sample := by
  induction tokens generalizing s l with
  | nil =>
    cases h
    exact ⟨rfl, rfl⟩
  | cons t tokens ih =>
    rw [List.foldlM_cons] at h
    obtain ⟨s₁, hs, h⟩ := exists_of_result_bind h
    have hstep := leaves_apply hs
    obtain ⟨hp, hsample⟩ := ih h
    constructor
    · rw [hp, hstep.pattern, ← Option.or_assoc, recordedPattern, recordedPattern, getLast?_filterMap_cons]
    · rw [hsample, hstep.sample, ← Option.or_assoc, lastSample, lastSample, getLast?_filterMap_cons, Option.map_or]

/-- An example fits the pattern that it was made for. -/
theorem fits_of_lastSample {tokens : List Token} {p e : String} (h : lastSample patterns tokens = some (p, e)) :
    Pattern.fits p e patterns.characters = true := by
  obtain ⟨t, -, ht⟩ := List.mem_filterMap.1 (List.mem_of_getLast? h)
  unfold Token.sample? at ht
  split at ht
  · obtain ⟨raw, -, hraw⟩ := Option.bind_eq_some_iff.1 ht
    split at hraw
    · rename_i he
      obtain ⟨rfl, rfl⟩ := Prod.mk.inj (Option.some.inj hraw)
      exact Pattern.fits_of_exampleFor he
    · cases hraw
  · cases ht

/-! ## The node of a field -/

theorem pattern_boundsOf {kind : Kind} {c : Constraints} (h : boundsOf kind s = .ok c) :
    c.pattern = s.pattern.map .str := by
  have hwhole : ∀ {v : Option Value} {f : Option Value → Except Fault Constraints},
      (wholeBound v >>= f) = .ok c → ∃ w, f w = .ok c := by
    intro v f hf
    cases hv : wholeBound v with
    | error e => rw [hv] at hf; cases hf
    | ok w => exact ⟨w, by rw [hv] at hf; exact hf⟩
  unfold boundsOf at h
  dsimp only at h
  split at h
  · cases h
    rfl
  · cases h
    rfl
  · obtain ⟨w, h⟩ := hwhole h
    obtain ⟨w', h⟩ := hwhole h
    cases h
    rfl
  · split at h
    · cases h
      rfl
    · obtain ⟨w, h⟩ := hwhole h
      obtain ⟨w', h⟩ := hwhole h
      cases h
      rfl
  · cases h
    rfl

/-- A node has the pattern of the rules, and no other example than theirs. -/
theorem facets_of_node {n : Node} (h : s.node = .ok n) :
    n.facets.constraints.bind (·.pattern) = s.pattern.map .str ∧
      ∀ v, n.facets.sample = some v → s.sample.map .str = some v := by
  obtain ⟨c, hc, -, hfacets⟩ := State.exists_of_node h
  obtain ⟨sentences, hsized, -⟩ := s.exists_sized n.kind
  have hpattern := pattern_boundsOf hc
  rw [hfacets, hsized]
  dsimp only [State.facets]
  constructor
  · split
    · rename_i hempty
      have hnone : c.pattern = none := by
        simp only [Constraints.isEmpty, Bool.and_eq_true, Option.isNone_iff_eq_none] at hempty
        exact hempty.2
      rw [← hpattern, hnone]
      rfl
    · exact hpattern
  · intro v hv
    split at hv
    · exact hv
    · cases hv

/-- An example fits the pattern that it is shown with, if that is the pattern that the example was made for: the last
rule that sets a pattern is a regular expression that has an example, or sets the same pattern as the last of these, and
nothing is cut from the expression a second time. -/
theorem fits_of_interpret {rules : Raw} {l : σ} {n : Node} {pattern sample : Value}
    (hn : result (interpret ⟨{}, patterns, enums⟩ rules) l = .ok n)
    (hpattern : n.facets.constraints.bind (·.pattern) = some pattern) (hsample : n.facets.sample = some sample)
    (hsame : recordedPattern (parse rules) = sampledPattern patterns (parse rules)) :
    ∃ p e, pattern = .str p ∧ sample = .str e ∧ Pattern.fits p e patterns.characters = true := by
  unfold interpret interpretTokens at hn
  rw [result_bind] at hn
  cases hs : result ((parse rules).foldlM (apply ⟨{}, patterns, enums⟩) {}) l with
  | error p => rw [hs] at hn; cases hn
  | ok s =>
    rw [hs] at hn
    obtain ⟨hp, he⟩ := foldlM_apply hs
    obtain ⟨hnode, hshown⟩ := facets_of_node hn
    rw [hnode, hp, Option.or_none, hsame] at hpattern
    have hsample := hshown _ hsample
    rw [he, Option.or_none] at hsample
    cases hlast : lastSample patterns (parse rules) with
    | none => rw [sampledPattern, hlast] at hpattern; cases hpattern
    | some last =>
      obtain ⟨p, e⟩ := last
      rw [sampledPattern, hlast] at hpattern
      rw [hlast] at hsample
      exact ⟨p, e, (Option.some.inj hpattern).symm, (Option.some.inj hsample).symm, fits_of_lastSample hlast⟩

/-- The texts of the pattern and the example that a node has. -/
def shown? (n : Node) : Option (String × String) :=
  match n.facets.constraints.bind (·.pattern), n.facets.sample with
  | some (.str p), some (.str e) => some (p, e)
  | _, _ => none

theorem facets_of_shown? {x : Except Problem Node} {p e : String} (h : x.toOption.bind shown? = some (p, e)) :
    ∃ n, x = .ok n ∧ n.facets.constraints.bind (·.pattern) = some (.str p) ∧ n.facets.sample = some (.str e) := by
  cases x with
  | error p => cases h
  | ok n =>
    refine ⟨n, rfl, ?_⟩
    simp only [Except.toOption, Option.bind_some, shown?] at h
    split at h
    · rename_i hp he
      cases h
      exact ⟨hp, he⟩
    · cases h

end

/-- What the rules of a text show: a pattern and an example. -/
def shownFor (rules : String) : Option (String × String) :=
  (result (interpret (m := Over Unit) {} (.line rules)) ()).toOption.bind shown?

theorem fits_of_interpret_regex :
    shownFor "digits:5|regex:/^[a-z]\x7b3\x7d$/|max:3" = some ("^[a-z]\x7b3\x7d$", "abc") ∧
      Pattern.fits "^[a-z]\x7b3\x7d$" "abc" = true := by
  have h : shownFor "digits:5|regex:/^[a-z]\x7b3\x7d$/|max:3" = some ("^[a-z]\x7b3\x7d$", "abc") := by decide +kernel
  refine ⟨h, ?_⟩
  obtain ⟨n, hn, hp, he⟩ := facets_of_shown? h
  obtain ⟨p, e, hp, he, hfits⟩ := fits_of_interpret hn hp he (by decide +kernel)
  cases hp
  cases he
  exact hfits

/-- A rule after the expression sets another pattern and leaves the example as it is; and an example is made for what is
left when delimiters are cut twice. -/
theorem interpret_not_fits :
    (shownFor "regex:^[a-z]\x7b3\x7d$|digits:5" = some ("^\\d\x7b5\x7d$", "abc") ∧
        Pattern.fits "^\\d\x7b5\x7d$" "abc" = false) ∧
      (shownFor "regex://a//" = some ("/a/", "a") ∧ Pattern.fits "/a/" "a" = false) := by
  decide +kernel

end Rule
end ApiSchema
