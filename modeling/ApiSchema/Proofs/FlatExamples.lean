import ApiSchema.Proofs.Delimiters
import ApiSchema.Proofs.FlatPatterns
import ApiSchema.Proofs.RulePatterns
import ApiSchema.Proofs.TypeWords

/-!
# Examples of flat patterns

An example of a flat pattern is put together from a sample of each atom, repeated as often as the quantifier asks for,
which its part accepts (`Part.exists_piece`). The scanner that looks for atoms and quantifiers cuts a flat pattern into
just its parts (`buildFrom_body`), and so the pattern has an example (`exampleFor_of_isLegible`). A number with too many
digits stands in the way: it can be written with zeros in front of a small number, and then the pattern cannot even be
read (`exampleFor_of_not_isLegible`).
-/
namespace ApiSchema.Pattern

open Text

variable {s : CharSet} {d : Char} {text : List Char}

/-! ## Samples -/

/-- The samples are made of characters that their atoms stand for. -/
theorem samples_fit : (setSamples.all fun e =>
    e.2.toList != [] && decide (e.2.toList.length ≤ 16) && (atomSets.get? e.1).any fun s =>
      e.2.toList.all s.has) = true := by decide +kernel

theorem Atom.exists_sample (a : Atom) : ∃ sample, sampleOf? a.text setSamples = some sample ∧ sample ≠ [] ∧
    sample.length ≤ 16 ∧ ∀ c ∈ sample, a.set.has c = true := by
  cases hget : setSamples.get? (String.ofList a.text) with
  | some sample =>
    have hfit := List.all_eq_true.1 samples_fit _ (Entries.mem_of_get? hget)
    simp only [Bool.and_eq_true, bne_iff_ne, decide_eq_true_eq] at hfit
    obtain ⟨⟨hne, hlength⟩, hset⟩ := hfit
    obtain ⟨s, hs, hall⟩ := (Option.any_eq_true _ _).1 hset
    refine ⟨sample.toList, ?_, hne, hlength, ?_⟩
    · simp [sampleOf?, hget]
    · rw [Atom.set, hs]
      exact List.all_eq_true.1 hall
  | none =>
    obtain ⟨c, htext, hc, -, hset⟩ := Atom.eq_char hget
    refine ⟨[c], ?_, by simp, by simp, ?_⟩
    · rw [htext] at hget ⊢
      unfold sampleOf?
      rw [hget]
      split
      · rename_i heq
        cases heq
      · rename_i heq
        cases heq
      · rename_i heq
        cases heq
        cases hc
      · rfl
    · simp [hset, CharSet.has, SetItem.has, Folding.same, Folding.equivalents, Folding.fold]

theorem Spells.atom?_append (h : Spells text s) (rest : List Char) :
    atom? (text ++ rest) = some (text, rest) := by
  cases h with
  | @inClass c k hk =>
    have hc : ¬ (c == '\n') = true := by
      intro hc
      obtain rfl := beq_iff_eq.1 hc
      cases hk
    exact if_neg hc
  | anyChar => rfl
  | @ranges rs hne hrs =>
    have hclosing : ∀ c ∈ rangesText rs, (c != ']') = true := by
      rintro c hc
      refine bne_iff_ne.2 ?_
      rintro rfl
      exact not_mem_rangesText hrs rfl (by decide) hc
    have hend : ∀ c ∈ (']' :: rest).head?, (c != ']') = false := by simp
    obtain ⟨htake, hdrop⟩ := TypeExpr.span_append hclosing hend
    have hinside : rangesText rs ≠ [] := by
      obtain ⟨ab, rs, rfl⟩ := List.exists_cons_of_ne_nil hne
      simp [rangesText]
    simp only [List.cons_append, List.append_assoc, List.nil_append, atom?, htake, hdrop]
    simp [hinside]
  | @char c hc hdot =>
    unfold atom?
    split
    · rename_i heq
      cases heq
      cases hc
    · rename_i heq
      cases heq
      cases hc
    · rename_i heq
      cases heq
      exact if_neg (by simp [hc])
    · rename_i heq
      cases heq

/-! ## Numbers of repetitions -/

/-- How often an atom with a quantifier is repeated in an example. -/
def Quantifier.count : Quantifier → Nat
  | once | optional => 1
  | anyTimes | someTimes => usualCount
  | exactly n => n.value
  | atLeast n => max n.value usualCount
  | between n m _ => min (max n.value usualCount) m.value

theorem Quantifier.least_le_count (q : Quantifier) : q.least ≤ q.count := by
  cases q with
  | between n m h => exact Nat.le_min.2 ⟨Nat.le_max_left _ _, h⟩
  | atLeast n => exact Nat.le_max_left _ _
  | _ => simp [least, count, usualCount]

theorem Quantifier.count_le_most (q : Quantifier) : ∀ m ∈ q.most, q.count ≤ m := by
  cases q <;> simp [most, count]

theorem Quantifier.count_lt (q : Quantifier) : q.count < Read.repeatLimit := by
  cases q with
  | exactly n => exact n.lt_limit
  | atLeast n => exact Nat.max_lt.2 ⟨n.lt_limit, by decide⟩
  | between n m h => exact Nat.lt_of_le_of_lt (Nat.min_le_right _ _) m.lt_limit
  | _ => decide

/-- The values of the digits. -/
def Numeral.values (n : Numeral) : List Nat := n.digits.map fun c => c.toNat - '0'.toNat

theorem digits?_append (n : Numeral) (rest : List Char) (hrest : ∀ c ∈ rest.head?, isDecimalDigit c = false) :
    digits? (n.digits ++ rest) = some (n.values, rest) := by
  obtain ⟨htake, hdrop⟩ := TypeExpr.span_append (fun c hc => TypeExpr.isDecimalDigit_of_isDigit (n.isDigit c hc)) hrest
  have hvalues : n.digits.filterMap digitValue? = n.values := by
    rw [Numeral.values, ← List.filterMap_eq_map]
    exact List.filterMap_congr fun c hc => digitValue?_of_isDigit (n.isDigit c hc)
  simp only [digits?, htake, hdrop, hvalues]
  exact if_neg (by simpa using n.ne_nil)

theorem countNumber?_of_isLegible {n : Numeral} (h : n.isLegible = true) : countNumber? n.values = some n.value := by
  have hlength : ¬ Read.digitLimit < n.values.length := by simpa [Numeral.values, Numeral.isLegible] using h
  rw [countNumber?, if_neg hlength, Numeral.values, digitsToNat_map]
  rfl

/-- The characters that a repetition starts with. -/
def isCountStart (c : Char) : Bool := "+*?\x7b".toList.contains c

/-- The scanner finds a quantifier where one is written, and none where none is. -/
theorem count?_append {q : Quantifier} (hq : q.isLegible = true) {rest : List Char}
    (hrest : ∀ c ∈ rest.head?, isCountStart c = false) : count? (q.text ++ rest) = (some q.count, rest) := by
  have hclosing : isDecimalDigit '\x7d' = false := by decide +kernel
  have hcomma : isDecimalDigit ',' = false := by decide +kernel
  cases q with
  | once =>
    change count? rest = (some 1, rest)
    unfold count?
    split
    all_goals first | rfl | cases hrest _ rfl
  | optional | anyTimes | someTimes => rfl
  | exactly n =>
    have hdigits := digits?_append n ('\x7d' :: rest) (by simpa using hclosing)
    have hvalue := countNumber?_of_isLegible hq
    simp [Quantifier.text, count?, bracedCount?, hdigits, Count.value?, hvalue, Quantifier.count]
  | atLeast n =>
    have hdigits := digits?_append n (',' :: '\x7d' :: rest) (by simpa using hcomma)
    have hvalue := countNumber?_of_isLegible hq
    simp [Quantifier.text, count?, bracedCount?, hdigits, Count.value?, hvalue, Quantifier.count]
  | between n m h =>
    obtain ⟨hn, hm⟩ := Bool.and_eq_true_iff.1 hq
    have hlow := digits?_append n (',' :: (m.digits ++ '\x7d' :: rest)) (by simpa using hcomma)
    have hhigh := digits?_append m ('\x7d' :: rest) (by simpa using hclosing)
    -- The second number does not end the braces before it has begun.
    have hbraces : bracedCount? (n.digits ++ ',' :: (m.digits ++ '\x7d' :: rest)) =
        some (.between n.values m.values, rest) := by
      unfold bracedCount?
      rw [hlow]
      simp only [Option.bind_eq_bind, Option.bind_some]
      split
      · rename_i heq
        cases heq
      · rename_i more heq
        obtain ⟨d, ds, hd⟩ := List.exists_cons_of_ne_nil m.ne_nil
        have hdigit := m.isDigit d (hd ▸ List.mem_cons_self)
        rw [hd] at heq
        cases heq
        cases hdigit
      · rename_i more _ heq
        obtain rfl := (List.cons.inj heq).2
        simp [hhigh]
      · rename_i hno
        exact absurd rfl (hno _)
    simp [Quantifier.text, count?, hbraces, Count.value?, countNumber?_of_isLegible hn, countNumber?_of_isLegible hm,
      Quantifier.count]

/-! ## Building -/

theorem Spells.text_ne_nil (h : Spells text s) : text ≠ [] := by
  cases h <;> simp

theorem Spells.isCountStart_head (h : Spells text s) (rest : List Char) :
    ∀ c ∈ (text ++ rest).head?, isCountStart c = false := by
  cases h with
  | inClass hk | anyChar | ranges hne hrs => simp [isCountStart]
  | char hc hdot =>
    rintro c ⟨⟩
    simp [isCountStart, ne_of_isSpecial hc (d := '+') rfl, ne_of_isSpecial hc (d := '*') rfl,
      ne_of_isSpecial hc (d := '?') rfl,
      ne_of_isSpecial hc (d := '\x7b') rfl]

theorem Part.exists_piece (p : Part) (hp : p.quantifier.isLegible = true) {rest : List Char}
    (hrest : ∀ c ∈ rest.head?, isCountStart c = false) : ∃ piece, p.Accepts piece ∧
      ∀ n, buildFrom setSamples (n + 1) (p.text ++ rest) = (buildFrom setSamples n rest).map (·.map (piece ++ ·)) := by
  obtain ⟨sample, hsample, hne, hshort, hhas⟩ := p.atom.exists_sample
  have hlimit : stretched sample p.quantifier.count ≤ maxLength := by
    have hstretched := stretched_le sample p.quantifier.count
    have hcount := p.quantifier.count_lt
    simp only [Read.repeatLimit, maxLength] at hcount ⊢
    omega
  obtain ⟨piece, hcycle, hlength, hmem⟩ := exists_cycle hne hlimit
  refine ⟨piece, ⟨?_, ?_, fun c hc => hhas c (hmem c hc)⟩, fun n => ?_⟩
  · rw [hlength]
    exact p.quantifier.least_le_count
  · rw [hlength]
    exact p.quantifier.count_le_most
  · have hatom := p.atom.spells.atom?_append (p.quantifier.text ++ rest)
    have hcount := count?_append hp hrest
    obtain ⟨c, cs, hc⟩ := List.exists_cons_of_ne_nil p.atom.spells.text_ne_nil
    rw [Part.text, List.append_assoc]
    rw [hc, List.cons_append] at hatom ⊢
    rw [← hc] at hatom
    have hpart : part? setSamples (c :: (cs ++ (p.quantifier.text ++ rest))) =
        some (sample, p.quantifier.count, rest) := by
      simp [part?, hatom, hsample, hcount]
    simp only [buildFrom, hpart, hcycle]
    cases buildFrom setSamples n rest <;> rfl

theorem isCountStart_body (parts : List Part) : ∀ c ∈ (parts.flatMap Part.text).head?, isCountStart c = false := by
  cases parts with
  | nil => rintro c ⟨⟩
  | cons p parts =>
    rw [List.flatMap_cons, Part.text, List.append_assoc]
    exact p.atom.spells.isCountStart_head _

/-- The scanner cuts a flat pattern into its parts. -/
theorem buildFrom_body {parts : List Part} (h : (parts.all (·.quantifier.isLegible)) = true) {n : Nat}
    (hn : (parts.flatMap Part.text).length ≤ n) : ∃ pieces, List.Forall₂ Part.Accepts parts pieces ∧
      buildFrom setSamples n (parts.flatMap Part.text) = .ok (some pieces.flatten) := by
  induction parts generalizing n with
  | nil => exact ⟨[], .nil, by cases n <;> rfl⟩
  | cons p parts ih =>
    rw [List.all_cons, Bool.and_eq_true_iff] at h
    have hpos := List.length_pos_iff.2 p.atom.spells.text_ne_nil
    rw [List.flatMap_cons] at hn ⊢
    simp only [Part.text, List.length_append] at hn
    obtain ⟨n, rfl⟩ : ∃ k, n = k + 1 := ⟨n - 1, by omega⟩
    obtain ⟨piece, hpiece, hstep⟩ := p.exists_piece h.1 (isCountStart_body parts)
    obtain ⟨pieces, hpieces, hrest⟩ := ih h.2 (n := n) (by omega)
    exact ⟨piece :: pieces, .cons hpiece hpieces, by rw [hstep, hrest]; rfl⟩

/-! ## The body of a flat pattern -/

/-- Characters that no part is written with. -/
def isOuter (c : Char) : Bool := "^$()|".toList.contains c

theorem Spells.not_mem_of_isOuter (h : Spells text s) (hd : isOuter d = true) :
    d ∉ text := by
  have hall : ("^$()|".toList.all fun d => isSpecial d && (Read.classOf? false d).isNone && !d.isAlphanum && d != '-' &&
      !"\\.[]".toList.contains d) = true := by decide
  have hfacts := List.all_eq_true.1 hall d (List.contains_iff_mem.1 hd)
  simp only [Bool.and_eq_true, Option.isNone_iff_eq_none, Bool.not_eq_true', bne_iff_ne] at hfacts
  obtain ⟨⟨⟨⟨hspecial, hclass⟩, halnum⟩, hdash⟩, hother⟩ := hfacts
  have hother : d ≠ '\\' ∧ d ≠ '.' ∧ d ≠ '[' ∧ d ≠ ']' := by simpa using hother
  cases h with
  | @inClass c k hk =>
    have hne : d ≠ c := by
      rintro rfl
      rw [hclass] at hk
      cases hk
    simp [hother, hne]
  | anyChar => simp [hother]
  | ranges hne hrs =>
    have hinside := not_mem_rangesText hrs halnum hdash
    simp [hother, hinside]
  | char hc hdot => simpa using (ne_of_isSpecial hc hspecial).symm

theorem Quantifier.not_mem_of_isOuter (q : Quantifier) (hd : isOuter d = true) : d ∉ q.text := by
  have hall : ("^$()|".toList.all fun d => !d.isDigit && !"?*+\x7b,\x7d".toList.contains d) = true := by decide
  have hfacts := List.all_eq_true.1 hall d (List.contains_iff_mem.1 hd)
  simp only [Bool.and_eq_true, Bool.not_eq_true'] at hfacts
  obtain ⟨hdigit, hother⟩ := hfacts
  have hdigits : ∀ n : Numeral, d ∉ n.digits := fun n h => by simp [n.isDigit d h] at hdigit
  have hother : d ≠ '?' ∧ d ≠ '*' ∧ d ≠ '+' ∧ d ≠ '\x7b' ∧ d ≠ ',' ∧ d ≠ '\x7d' := by simpa using hother
  cases q <;> simp [text, hdigits, hother]

theorem Flat.not_mem_body_of_isOuter (f : Flat) (hd : isOuter d = true) : d ∉ f.body := by
  intro h
  obtain ⟨p, -, hp⟩ := List.mem_flatMap.1 h
  rcases List.mem_append.1 hp with hp | hp
  · exact p.atom.spells.not_mem_of_isOuter hd hp
  · exact p.quantifier.not_mem_of_isOuter hd hp

theorem Spells.getLast?_text (h : Spells text s) : text.getLast? ≠ some '\\' := by
  cases h with
  | inClass hk =>
    rintro ⟨⟩
    cases hk
  | anyChar => simp
  | ranges hne hrs => exact fun hlast => not_mem_ranges hrs (List.mem_of_getLast? hlast)
  | char hc hdot =>
    rintro ⟨⟩
    cases hc

theorem Part.getLast?_text (p : Part) : p.text.getLast? ≠ some '\\' := by
  unfold text
  rw [List.getLast?_append]
  cases hq : p.quantifier.text.getLast? with
  | none => exact p.atom.spells.getLast?_text
  | some c =>
    rintro ⟨⟩
    exact p.quantifier.isPlain_text (List.mem_of_getLast? hq)

theorem Flat.getLast?_body (f : Flat) : f.body.getLast? ≠ some '\\' := by
  unfold body
  induction f.parts with
  | nil => simp
  | cons p parts ih =>
    rw [List.flatMap_cons, List.getLast?_append]
    cases hparts : (parts.flatMap Part.text).getLast? with
    | none => exact p.getLast?_text
    | some c =>
      rw [hparts] at ih
      exact ih

/-- The body is what lies between the marks of the start and of the end. -/
theorem bodyOf_text (f : Flat) : bodyOf f.text.toList = f.body := by
  have hinner : (if f.text.toList.head? == some '^' then f.text.toList.tail else f.text.toList) =
      f.body ++ f.endText := by
    rw [Flat.text, String.toList_ofList, Flat.startText]
    cases f.opened with
    | true => rfl
    | false =>
      rw [if_neg Bool.false_ne_true, List.nil_append]
      refine if_neg fun h => ?_
      rcases List.mem_append.1 (List.mem_of_head? (eq_of_beq h)) with hbody | hend
      · exact f.not_mem_body_of_isOuter rfl hbody
      · unfold Flat.endText at hend
        split at hend
        · cases List.mem_singleton.1 hend
        · cases hend
  have hdollar : f.body.getLast? ≠ some '$' := fun h => f.not_mem_body_of_isOuter rfl (List.mem_of_getLast? h)
  have hlast := f.getLast?_body
  rw [← List.head?_reverse] at hdollar hlast
  unfold bodyOf
  rw [hinner, Flat.endText]
  dsimp only
  cases f.closed with
  | true =>
    rw [if_pos rfl, List.reverse_append, List.reverse_singleton, List.singleton_append]
    split
    · rename_i heq
      exact absurd (congrArg List.head? (List.cons.inj heq).2) hlast
    · rename_i rest _ heq
      rw [← (List.cons.inj heq).2, List.reverse_reverse]
    · rename_i hno
      exact absurd rfl (hno _)
  | false =>
    rw [if_neg Bool.false_ne_true, List.append_nil]
    split
    · rfl
    · rename_i heq
      exact absurd (congrArg List.head? heq) hdollar
    · rfl

theorem build?_text {f : Flat} (h : f.isLegible = true) :
    ∃ sample, build? f.text setSamples = .ok (some sample) ∧ f.Accepts sample := by
  obtain ⟨pieces, hpieces, hbuild⟩ := buildFrom_body h (Nat.le_refl f.body.length)
  refine ⟨String.ofList pieces.flatten, ?_, pieces, String.toList_ofList.symm, hpieces⟩
  have hgroups : ¬ (f.body.any fun c => c == '(' || c == ')' || c == '|') = true := by
    rw [List.any_eq_true]
    rintro ⟨c, hc, hgroup⟩
    have houter : isOuter c = true := by
      simp only [Bool.or_eq_true, beq_iff_eq] at hgroup
      rcases hgroup with (rfl | rfl) | rfl <;> rfl
    exact f.not_mem_body_of_isOuter houter hc
  unfold build?
  dsimp only
  change buildFrom setSamples f.body.length f.body = _ at hbuild
  rw [bodyOf_text, if_neg hgroups, hbuild]
  rfl

/-! ## Examples -/

theorem firstMatch?_of_mem {p : Pattern} (hp : p.ungrouped = true) {texts : List String} {text : String}
    (htext : text ∈ texts)
    (hmatch : p.fullMatch text = .ok true) : ∃ found, firstMatch? p texts = .ok (some found) := by
  induction texts with
  | nil => cases htext
  | cons t texts ih =>
    obtain ⟨b, hb⟩ := fullMatch_of_ungrouped hp t
    unfold firstMatch?
    rw [hb]
    cases b with
    | true => exact ⟨t, rfl⟩
    | false =>
      rcases List.mem_cons.1 htext with rfl | htext
      · rw [hb] at hmatch
        cases hmatch
      · exact ih htext

theorem fits_text_iff {f : Flat} (h : f.isLegible = true) (text : String) (characters : Characters) :
    Pattern.fits f.text text characters = true ↔ f.Accepts text := by
  obtain ⟨b, hb⟩ := fullMatch_of_ungrouped (ungrouped_of_isFlat f.isFlat_pattern) text
  rw [← fullMatch_pattern_iff, Pattern.fits, read_text, if_pos h]
  dsimp only
  rw [hb]
  simp [Except.toOption]

variable {f : Flat} (known : Entries Known) (characters : Characters)

/-- A flat pattern has an example if its numbers can be read. -/
theorem exampleFor_of_isLegible (hclean : clean f.text = f.text) (h : f.isLegible = true) :
    ∃ sample, exampleFor { known, characters } f.text = .ok (some sample) := by
  obtain ⟨sample, hbuild, haccepts⟩ := build?_text h
  unfold exampleFor
  dsimp only
  rw [hclean, read_text, if_pos h]
  dsimp only
  rw [hbuild]
  exact firstMatch?_of_mem (ungrouped_of_isFlat f.isFlat_pattern) (by simp)
    ((fullMatch_pattern_iff f sample).2 haccepts)

theorem exampleFor_of_not_isLegible (hclean : clean f.text = f.text) (h : f.isLegible = false) :
    exampleFor { known, characters } f.text = .error .invalid := by
  unfold exampleFor
  dsimp only
  rw [hclean, read_text, h]
  rfl

/-- A flat pattern has an example, which it accepts and matches as a whole, exactly if no number in it has too many
digits. With such a number it cannot be read, and asking for an example is a fault. -/
theorem exampleFor_flat (hclean : clean f.text = f.text) :
    (f.isLegible = true ∧ ∃ sample, exampleFor { known, characters } f.text = .ok (some sample) ∧
      f.Accepts sample ∧ fits f.text sample characters = true) ∨
    (f.isLegible = false ∧ exampleFor { known, characters } f.text = .error .invalid) := by
  cases h : f.isLegible with
  | true =>
    obtain ⟨sample, hsample⟩ := exampleFor_of_isLegible known characters hclean h
    have hfits := fits_of_exampleFor hsample
    rw [hclean] at hfits
    exact .inl ⟨rfl, sample, hsample, (fits_text_iff h sample characters).1 hfits, hfits⟩
  | false => exact .inr ⟨rfl, exampleFor_of_not_isLegible known characters hclean h⟩

/-- Two or three letters, a dash and some digits. -/
def lettersThenDigits : Flat where
  opened := true
  parts := [
    ⟨⟨"[A-Z]".toList, .inl (by decide +kernel)⟩,
      .between ⟨['2'], by simp, by simp, by decide⟩ ⟨['3'], by simp, by simp, by decide⟩ (by decide)⟩,
    ⟨⟨['-'], .inr ⟨'-', rfl, rfl⟩⟩, .once⟩,
    ⟨⟨"\\d".toList, .inl (by decide +kernel)⟩, .someTimes⟩]
  closed := true

theorem exampleFor_lettersThenDigits : clean "^[A-Z]\x7b2,3\x7d-\\d+$" = "^[A-Z]\x7b2,3\x7d-\\d+$" ∧
    ∃ sample, exampleFor knownPatterns "^[A-Z]\x7b2,3\x7d-\\d+$" = .ok (some sample) ∧
      lettersThenDigits.Accepts sample ∧
      fits "^[A-Z]\x7b2,3\x7d-\\d+$" sample = true := by
  have htext : lettersThenDigits.text = "^[A-Z]\x7b2,3\x7d-\\d+$" := by decide +kernel
  have hclean : clean lettersThenDigits.text = lettersThenDigits.text := by
    rw [htext]
    decide +kernel
  rcases exampleFor_flat knownPatterns noCharacters hclean with ⟨-, hsample⟩ | ⟨h, -⟩
  · rw [htext] at hclean hsample
    exact ⟨hclean, hsample⟩
  · cases h

theorem ofDigitChars_zeros (n : Nat) (ds : List Char) :
    Nat.ofDigitChars 10 (List.replicate n '0' ++ ds) 0 = Nat.ofDigitChars 10 ds 0 := by
  induction n with
  | zero => rfl
  | succ n ih => exact ih

/-- The number five with zeros in front of it, one digit too many. -/
def paddedFive : Numeral where
  digits := List.replicate Read.digitLimit '0' ++ ['5']
  ne_nil := by simp
  isDigit := by
    intro c hc
    rcases List.mem_append.1 hc with hc | hc
    · rw [List.eq_of_mem_replicate hc]
      rfl
    · rw [List.mem_singleton.1 hc]
      rfl
  lt_limit := by
    rw [ofDigitChars_zeros]
    decide

/-- A letter repeated that many times. -/
def paddedLetter : Flat where
  parts := [⟨⟨['a'], .inr ⟨'a', rfl, rfl⟩⟩, .exactly paddedFive⟩]

/-- Five characters can be asked for by a number that cannot be read. -/
theorem exampleFor_paddedFive :
    exampleFor knownPatterns (String.ofList ('a' :: '\x7b' :: (paddedFive.digits ++ ['\x7d']))) = .error .invalid ∧
      paddedFive.value = 5 ∧ exampleFor knownPatterns "a\x7b5\x7d" = .ok (some "aaaaa") := by
  have htext : paddedLetter.text = String.ofList ('a' :: '\x7b' :: (paddedFive.digits ++ ['\x7d'])) := by
    simp [paddedLetter, Flat.text, Flat.startText, Flat.endText, Flat.body, Part.text, Quantifier.text]
  have hclean : clean paddedLetter.text = paddedLetter.text := by
    rw [clean_eq_self_iff, htext, String.toList_ofList]
    refine ⟨⟨?_, ?_⟩, ?_⟩
    · rintro c ⟨⟩
      decide +kernel
    · intro c hc
      rw [← List.cons_append, ← List.cons_append, List.getLast?_concat] at hc
      cases hc
      decide +kernel
    · intro inside h
      generalize '\x7b' :: (paddedFive.digits ++ ['\x7d']) = rest at h
      cases h with
      | intro hd hinside hflags => simp [delimiters] at hd
  have hlegible : paddedLetter.isLegible = false := by
    simp [paddedLetter, Flat.isLegible, Quantifier.isLegible, Numeral.isLegible, paddedFive]
  refine ⟨?_, ofDigitChars_zeros _ _, by decide +kernel⟩
  rw [← htext]
  exact exampleFor_of_not_isLegible knownPatterns noCharacters hclean hlegible

end ApiSchema.Pattern
