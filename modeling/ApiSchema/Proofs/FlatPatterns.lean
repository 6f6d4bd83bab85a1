import ApiSchema.Proofs.Family
import ApiSchema.Proofs.Matching
import ApiSchema.Proofs.WholeNumbers

/-!
# Texts of flat patterns

A flat pattern is written as a row of atoms, each with a quantifier or without, between a mark of the start
and a mark of the end that may be left out. `Flat` is the syntax of such texts. Each atom stands for a set of
characters (`Atom.set`) and each quantifier for a least and a greatest number, which says what texts a flat
pattern accepts (`Flat.Accepts`). Reading gives the pattern with these sets and numbers unless a number has
too many digits (`read_text`), and this pattern matches a text as a whole exactly if the text is accepted
(`fullMatch_pattern_iff`).
-/
namespace ApiSchema.Pattern

open Text

/-! ## Atoms -/

def ofRanges (rs : List (Char × Char)) : CharSet := { items := rs.map fun r => .range r.1.toNat r.2.toNat }

/-- What the atoms stand for that have a sample of their own. -/
def atomSets : Entries CharSet := [
  ("\\d", { items := [.inClass false .digit] }),
  ("[0-9]", ofRanges [('0', '9')]),
  ("[1-9]", ofRanges [('1', '9')]),
  ("[a-z]", ofRanges [('a', 'z')]),
  ("[A-Z]", ofRanges [('A', 'Z')]),
  ("[a-zA-Z]", ofRanges [('a', 'z'), ('A', 'Z')]),
  ("[A-Za-z]", ofRanges [('A', 'Z'), ('a', 'z')]),
  ("[a-zA-Z0-9]", ofRanges [('a', 'z'), ('A', 'Z'), ('0', '9')]),
  ("[A-Za-z0-9]", ofRanges [('A', 'Z'), ('a', 'z'), ('0', '9')]),
  ("[A-Z0-9]", ofRanges [('A', 'Z'), ('0', '9')]),
  ("[a-z0-9]", ofRanges [('a', 'z'), ('0', '9')]),
  ("[0-9a-f]", ofRanges [('0', '9'), ('a', 'f')]),
  ("[0-9a-fA-F]", ofRanges [('0', '9'), ('a', 'f'), ('A', 'F')]),
  ("[a-fA-F0-9]", ofRanges [('a', 'f'), ('A', 'F'), ('0', '9')]),
  ("\\w", { items := [.inClass false .word] }),
  (".", .notNewline),
  ("\\s", { items := [.inClass false .space] })]

/-- An atom: one that has a sample, or a character that stands for itself. -/
structure Atom where
  text : List Char
  isAtom : setSamples.has (String.ofList text) = true ∨ ∃ c, text = [c] ∧ isSpecial c = false

def Atom.set (a : Atom) : CharSet :=
  (atomSets.get? (String.ofList a.text)).getD { items := a.text.map fun c => .char c.toNat }

/-! ## Quantifiers -/

/-- A number of repetitions as it is written. -/
structure Numeral where
  digits : List Char
  ne_nil : digits ≠ []
  isDigit : ∀ c ∈ digits, c.isDigit = true
  lt_limit : Nat.ofDigitChars 10 digits 0 < Read.repeatLimit

def Numeral.value (n : Numeral) : Nat := Nat.ofDigitChars 10 n.digits 0

def Numeral.isLegible (n : Numeral) : Bool := n.digits.length ≤ Read.digitLimit

inductive Quantifier where
  | once
  | optional
  | anyTimes
  | someTimes
  | exactly (n : Numeral)
  | atLeast (n : Numeral)
  | between (n m : Numeral) (h : n.value ≤ m.value)

namespace Quantifier

def text : Quantifier → List Char
  | once => []
  | optional => ['?']
  | anyTimes => ['*']
  | someTimes => ['+']
  | exactly n => '\x7b' :: (n.digits ++ ['\x7d'])
  | atLeast n => '\x7b' :: (n.digits ++ [',', '\x7d'])
  | between n m _ => '\x7b' :: (n.digits ++ ',' :: (m.digits ++ ['\x7d']))

def least : Quantifier → Nat
  | once | someTimes => 1
  | optional | anyTimes => 0
  | exactly n | atLeast n | between n _ _ => n.value

def most : Quantifier → Option Nat
  | once | optional => some 1
  | anyTimes | someTimes | atLeast _ => none
  | exactly n | between _ n _ => some n.value

/-- Whether no number has too many digits. -/
def isLegible : Quantifier → Bool
  | exactly n | atLeast n => n.isLegible
  | between n m _ => n.isLegible && m.isLegible
  | _ => true

end Quantifier

/-! ## Flat patterns -/

structure Part where
  atom : Atom
  quantifier : Quantifier

/-- A flat pattern, with a mark of the start and of the end or without. -/
structure Flat where
  opened : Bool := false
  parts : List Part
  closed : Bool := false

def Part.text (p : Part) : List Char := p.atom.text ++ p.quantifier.text

def Flat.startText (f : Flat) : List Char := if f.opened then ['^'] else []

def Flat.endText (f : Flat) : List Char := if f.closed then ['$'] else []

def Flat.body (f : Flat) : List Char := f.parts.flatMap Part.text

def Flat.text (f : Flat) : String := String.ofList (f.startText ++ (f.body ++ f.endText))

def Flat.isLegible (f : Flat) : Bool := f.parts.all (·.quantifier.isLegible)

def Part.Accepts (p : Part) (cs : List Char) : Prop :=
  Repeats p.atom.set p.quantifier.least p.quantifier.most cs

/-- The texts that a flat pattern describes: a row of pieces, one for each part. -/
def Flat.Accepts (f : Flat) (text : String) : Prop :=
  ∃ pieces : List (List Char), pieces.flatten = text.toList ∧ List.Forall₂ Part.Accepts f.parts pieces

def Part.pattern (p : Part) : Pattern :=
  match p.quantifier with
  | .once => .set p.atom.set
  | q => .times .greedy q.least q.most (.set p.atom.set)

def Flat.row (f : Flat) : List Pattern :=
  (if f.opened then [.anchor .textStart] else []) ++
    (f.parts.map Part.pattern ++ if f.closed then [.anchor .lastEnd] else [])

def Flat.pattern (f : Flat) : Pattern := inOrder f.row

/-! ## How atoms are written -/

variable {c : Char} {s : CharSet} {q : Quantifier} {text cs : List Char} {rs : List (Char × Char)}

def rangesText (rs : List (Char × Char)) : List Char := rs.flatMap fun r => [r.1, '-', r.2]

abbrev AreRanges (rs : List (Char × Char)) : Prop :=
  ∀ r ∈ rs, (r.1.isAlphanum && r.2.isAlphanum) = true ∧ r.1.toNat ≤ r.2.toNat

/-- The ways in which an atom is written, and the set that it stands for. -/
inductive Spells : List Char → CharSet → Prop where
  | inClass {c : Char} {k : SetItem} (h : Read.classOf? false c = some k) : Spells ['\\', c] { items := [k] }
  | anyChar : Spells ['.'] .notNewline
  | ranges {rs : List (Char × Char)} (hne : rs ≠ []) (h : AreRanges rs) :
      Spells ('[' :: rangesText rs ++ [']']) (ofRanges rs)
  | char {c : Char} (h : isSpecial c = false) (hdot : c ≠ '.') : Spells [c] { items := [.char c.toNat] }

theorem spells_ranges (htext : text = '[' :: rangesText rs ++ [']'])
    (hne : rs ≠ []) (h : (rs.all fun r => r.1.isAlphanum && r.2.isAlphanum && decide (r.1.toNat ≤ r.2.toNat)) = true) :
    Spells text (ofRanges rs) := by
  rw [htext]
  refine .ranges hne fun r hr => ?_
  have hr := List.all_eq_true.1 h r hr
  rw [Bool.and_eq_true_iff, decide_eq_true_iff] at hr
  exact hr

theorem spells_of_mem : ∀ e ∈ atomSets, Spells e.1.toList e.2 := by
  simp only [atomSets, List.forall_mem_cons, List.not_mem_nil, false_implies, implies_true, and_true]
  refine ⟨.inClass rfl, ?_, ?_, ?_, ?_, ?_, ?_, ?_, ?_, ?_, ?_, ?_, ?_, ?_, .inClass rfl, .anyChar, .inClass rfl⟩
  all_goals exact spells_ranges (by rfl) (List.cons_ne_nil _ _) (by rfl)

theorem atomSets_get?_eq_none_iff {key : String} : atomSets.get? key = none ↔ setSamples.get? key = none := by
  have hkeys : atomSets.keys = setSamples.keys := rfl
  rw [← not_iff_not, ← ne_eq, ← ne_eq, Option.ne_none_iff_isSome, Option.ne_none_iff_isSome, Entries.get?_isSome_iff,
    Entries.get?_isSome_iff, hkeys]

/-- An atom without a sample of its own is a character that stands for itself. -/
theorem Atom.eq_char {a : Atom} (h : setSamples.get? (String.ofList a.text) = none) :
    ∃ c, a.text = [c] ∧ isSpecial c = false ∧ c ≠ '.' ∧ a.set = { items := [.char c.toNat] } := by
  obtain ⟨c, htext, hc⟩ := a.isAtom.resolve_left (by simp [Entries.has, h])
  refine ⟨c, htext, hc, ?_, ?_⟩
  · rintro rfl
    rw [htext] at h
    cases h
  · rw [Atom.set, atomSets_get?_eq_none_iff.2 h, htext]
    rfl

theorem Atom.spells (a : Atom) : Spells a.text a.set := by
  cases hget : atomSets.get? (String.ofList a.text) with
  | some s =>
    rw [Atom.set, hget]
    simpa using spells_of_mem _ (Entries.mem_of_get? hget)
  | none =>
    obtain ⟨c, htext, hc, hdot, hset⟩ := Atom.eq_char (atomSets_get?_eq_none_iff.1 hget)
    rw [htext, hset]
    exact .char hc hdot

theorem ne_of_isSpecial {d : Char} (h : isSpecial c = false) (hd : isSpecial d = true) : c ≠ d := by
  rintro rfl
  rw [h] at hd
  cases hd

theorem marks_append_of_plain (h : '\\' ∉ cs) (ds : List Char) :
    marks (cs ++ ds) = cs.map .plain ++ marks ds := by
  induction cs with
  | nil => rfl
  | cons c cs ih =>
    simp only [List.mem_cons, not_or] at h
    rw [List.cons_append, marks.eq_def]
    dsimp only
    rw [if_neg (by simpa using Ne.symm h.1), ih h.2]
    rfl

theorem marks_of_plain (h : '\\' ∉ cs) : marks cs = cs.map .plain := by
  simpa [marks] using marks_append_of_plain h []

theorem not_mem_rangesText (hrs : AreRanges rs) {d : Char}
    (hd : d.isAlphanum = false) (hdash : d ≠ '-') : d ∉ rangesText rs := by
  intro h
  obtain ⟨r, hr, hmem⟩ := List.mem_flatMap.1 h
  have hr := hrs r hr
  simp only [Bool.and_eq_true] at hr
  simp only [List.mem_cons, List.not_mem_nil, or_false] at hmem
  rcases hmem with rfl | rfl | rfl
  · simp [hr.1.1] at hd
  · exact hdash rfl
  · simp [hr.1.2] at hd

theorem not_mem_ranges (hrs : AreRanges rs) :
    '\\' ∉ '[' :: rangesText rs ++ [']'] := by
  simpa using not_mem_rangesText hrs (d := '\\') rfl (by decide)

/-- An atom is read on its own. -/
theorem Spells.marks_append (h : Spells text s) (ds : List Char) :
    marks (text ++ ds) = marks text ++ marks ds := by
  have hplain : ∀ cs : List Char, '\\' ∉ cs → marks (cs ++ ds) = marks cs ++ marks ds := by
    intro cs hcs
    rw [marks_append_of_plain hcs, marks_of_plain hcs]
  cases h with
  | inClass hk => rfl
  | anyChar => exact hplain _ (by decide)
  | ranges hne hrs => exact hplain _ (not_mem_ranges hrs)
  | char hc hdot => exact hplain _ (by simpa using (ne_of_isSpecial hc (d := '\\') rfl).symm)

/-! ## Steps of reading -/

namespace Read

variable {α β : Type} {r : Reader} {rest : List Mark}

/-- What stops a repetition of characters of a kind. -/
def Stops (p : Char → Bool) (rest : List Mark) : Prop :=
  rest.head? ≠ some .dangling ∧ ∀ c, rest.head? = some (.plain c) → p c = false

theorem takeUpTo_eq {p : Char → Bool} {n : Nat} (hcs : ∀ c ∈ cs, p c = true) (hrest : Stops p rest)
    (hn : cs.length ≤ n) : takeUpTo p n (before r (cs.map .plain ++ rest)) = .ok (cs, before r rest) := by
  induction cs generalizing n with
  | nil =>
    cases n with
    | zero => rfl
    | succ n =>
      cases rest with
      | nil => rfl
      | cons m rest =>
        cases m with
        | plain c => exact (bind_of_ok (peek_eq _) _).trans (congrFun (if_neg (by simp [hrest.2 c rfl])) _)
        | escaped c | dangling => rfl
  | cons c cs ih =>
    obtain ⟨n, rfl⟩ : ∃ m, n = m + 1 := ⟨n - 1, by simp at hn; omega⟩
    have hnext : (cs.map Mark.plain ++ rest).head? ≠ some .dangling := by
      cases cs with
      | nil => exact hrest.1
      | cons d cs => simp
    refine (bind_of_ok (peek_eq _) _).trans ?_
    refine (congrFun (if_pos (hcs c List.mem_cons_self)) _).trans ?_
    refine (bind_of_ok (advance_eq _ hnext) _).trans ?_
    exact bind_of_ok (ih (fun d hd => hcs d (List.mem_cons_of_mem c hd)) (Nat.le_of_succ_le_succ hn)) _

theorem takeAll_eq {p : Char → Bool} (hcs : ∀ c ∈ cs, p c = true) (hrest : Stops p rest) :
    takeAll p (before r (cs.map .plain ++ rest)) = .ok (cs, before r rest) :=
  (bind_of_ok rfl _).trans (takeUpTo_eq hcs hrest (by simp))

/-! ## Sets -/

theorem setItems_ranges (hrs : AreRanges rs)
    {items : List SetItem} (hsome : rs ≠ [] ∨ items ≠ []) {n : Nat} (hn : rs.length < n)
    (hrest : rest.head? ≠ some .dangling) :
    setItems {} n items (before r ((rangesText rs).map .plain ++ .plain ']' :: rest)) =
      .ok (items ++ (ofRanges rs).items, before r rest) := by
  obtain ⟨n, rfl⟩ : ∃ m, n = m + 1 := ⟨n - 1, by omega⟩
  induction rs generalizing items n with
  | nil =>
    refine (bind_of_ok (next_eq _ hrest) _).trans ?_
    have hitems : items ≠ [] := hsome.resolve_left fun h => h rfl
    refine (congrFun (if_pos (by simpa using hitems)) _).trans ?_
    exact congrArg (fun is => Except.ok (is, _)) (List.append_nil items).symm
  | cons ab rs ih =>
    obtain ⟨a, b⟩ := ab
    obtain ⟨⟨halnum, hle⟩, hrs⟩ := List.forall_mem_cons.1 hrs
    obtain ⟨ha, hb⟩ := Bool.and_eq_true_iff.1 halnum
    have hclosing : ∀ c : Char, c.isAlphanum = true → ¬ (Mark.plain c == .plain ']') = true := by
      intro c hc h
      obtain rfl : c = ']' := by simpa using h
      cases hc
    have hnext : ((rangesText rs).map Mark.plain ++ .plain ']' :: rest).head? ≠ some .dangling := by
      cases rs <;> simp [rangesText]
    refine (bind_of_ok (next_eq _ (by simp)) _).trans ?_
    refine (congrFun (if_neg fun h => hclosing a ha (Bool.and_eq_true_iff.1 h).1) _).trans ?_
    refine (bind_of_ok rfl _).trans ?_
    refine (bind_of_ok (accept_self '-' (by simp)) _).trans ?_
    refine (congrFun (if_pos rfl) _).trans ?_
    refine (bind_of_ok (next_eq _ hnext) _).trans ?_
    refine (congrFun (if_neg (hclosing b hb)) _).trans ?_
    refine (bind_of_ok rfl _).trans ?_
    refine (congrFun (if_neg (Nat.not_lt.2 hle)) _).trans ?_
    obtain ⟨n, rfl⟩ : ∃ m, n = m + 1 := ⟨n - 1, by simp at hn; omega⟩
    rw [ih hrs (.inr (by simp)) n (by simpa using hn)]
    simp [ofRanges]

theorem setPiece_ranges (hne : rs ≠ []) (hrs : AreRanges rs)
    (hrest : rest.head? ≠ some .dangling) :
    setPiece {} (before r ((rangesText rs).map .plain ++ .plain ']' :: rest)) =
      .ok (⟨.set (ofRanges rs), true⟩, before r rest) := by
  have hplain : (before r ((rangesText rs).map .plain ++ .plain ']' :: rest)).marks.head? ≠ some (.plain '^') := by
    obtain ⟨ab, rs, rfl⟩ := List.exists_cons_of_ne_nil hne
    have hfirst := (Bool.and_eq_true_iff.1 (hrs ab List.mem_cons_self).1).1
    intro h
    obtain h : ab.1 = '^' := by simpa [rangesText] using h
    rw [h] at hfirst
    cases hfirst
  refine (bind_of_ok (accept_of_ne hplain) _).trans ((bind_of_ok rfl _).trans ?_)
  have hlength : rs.length < ((rangesText rs).map Mark.plain ++ .plain ']' :: rest).length + 1 := by
    simp [rangesText, List.length_flatMap]
    omega
  exact bind_of_ok (setItems_ranges hrs (.inl hne) hlength hrest) _

/-! ## Repetitions -/

theorem repeatNumber_eq (n : Numeral) :
    repeatNumber n.digits r = if n.isLegible then .ok (some n.value, r) else .error .refused := by
  refine (congrFun (if_neg (by simpa using n.ne_nil)) r).trans ?_
  by_cases h : n.digits.length ≤ digitLimit
  · have hvalue : n.digits.foldl (fun a c => a * 10 + (c.toNat - 48)) 0 = n.value := by
      simp only [Numeral.value, Nat.ofDigitChars_eq_foldl, Nat.mul_comm]
      rfl
    refine (congrFun (if_neg (Nat.not_lt.2 h)) r).trans ?_
    refine (congrFun (if_neg (Nat.not_le.2 (hvalue ▸ n.lt_limit))) r).trans ?_
    rw [show n.isLegible = true from decide_eq_true h]
    exact congrArg (fun v => Except.ok (some v, r)) hvalue
  · refine (congrFun (if_pos (Nat.lt_of_not_le h)) r).trans ?_
    rw [show n.isLegible = false from decide_eq_false h]
    rfl

theorem braces_end (low : Numeral) {high : List Char} {most : Option Nat} {legible : Bool}
    (hhigh : ∀ r, repeatNumber high r = if legible then .ok (most, r) else .error .refused)
    (hle : ∀ m ∈ most, low.value ≤ m) (hrest : rest.head? ≠ some .dangling) (start : Reader) :
    bracesEnd low.digits high start (before r (.plain '\x7d' :: rest)) =
      if low.isLegible && legible then .ok (some (low.value, most), before r rest) else .error .refused := by
  have hlow := repeatNumber_eq (r := before r rest) low
  have hhigh := hhigh (before r rest)
  refine (bind_of_ok (accept_self _ hrest) _).trans ((congrFun (if_pos rfl) _).trans ?_)
  cases hl : low.isLegible with
  | false =>
    rw [hl] at hlow
    exact bind_of_error hlow _
  | true =>
    rw [hl] at hlow
    refine (bind_of_ok hlow _).trans ?_
    cases hm : legible with
    | false =>
      rw [hm] at hhigh
      exact bind_of_error hhigh _
    | true =>
      rw [hm] at hhigh
      have hany : ¬ most.any (fun m => decide (m < low.value)) = true := by
        cases most with
        | none => simp
        | some m => simpa using hle m rfl
      exact (bind_of_ok hhigh _).trans (congrFun (if_neg hany) _)

theorem stops_isDigit (h : c.isDigit = false) (ms : List Mark) : Stops Char.isDigit (.plain c :: ms) :=
  ⟨by simp, fun d hd => by cases hd; exact h⟩

theorem braces_low (low : Numeral) {ms : List Mark} (hms : Stops Char.isDigit ms) :
    braces (before r (low.digits.map .plain ++ ms)) = (do
      let high ← if ← accept ',' then takeAll Char.isDigit else pure low.digits
      bracesEnd low.digits high (before r (low.digits.map Mark.plain ++ ms))) (before r ms) := by
  obtain ⟨d, ds, hdigits⟩ := List.exists_cons_of_ne_nil low.ne_nil
  have hd := low.isDigit d (hdigits ▸ List.mem_cons_self)
  have hclosing : ¬ ((low.digits.map Mark.plain ++ ms).head? == some (.plain '\x7d')) = true := by
    rw [hdigits]
    intro h
    obtain rfl : d = '\x7d' := by simpa using h
    cases hd
  refine (bind_of_ok rfl _).trans ((bind_of_ok (peek_eq _) _).trans ?_)
  exact (congrFun (if_neg hclosing) _).trans (bind_of_ok (takeAll_eq low.isDigit hms) _)

/-- Braces read the numbers of a quantifier that is written with them. -/
theorem braces_eq {inside : List Char} (hq : q.text = '\x7b' :: inside) (hrest : rest.head? ≠ some .dangling) :
    braces (before r (inside.map .plain ++ rest)) =
      if q.isLegible then .ok (some (q.least, q.most), before r rest) else .error .refused := by
  cases q with
  | exactly n =>
    obtain rfl : n.digits ++ ['\x7d'] = inside := (List.cons.inj hq).2
    rw [List.map_append, List.append_assoc]
    refine (braces_low n (stops_isDigit rfl rest)).trans ?_
    refine (bind_of_ok (accept_of_ne (by simp)) _).trans ((congrFun (if_neg (by simp)) _).trans ?_)
    refine (bind_of_ok rfl _).trans ((braces_end n (fun _ => repeatNumber_eq n) (by simp) hrest _).trans ?_)
    rw [Bool.and_self]
    rfl
  | atLeast n =>
    obtain rfl : n.digits ++ [',', '\x7d'] = inside := (List.cons.inj hq).2
    rw [List.map_append, List.append_assoc]
    refine (braces_low n (stops_isDigit rfl _)).trans ?_
    refine (bind_of_ok (accept_self ',' (by simp)) _).trans ((congrFun (if_pos rfl) _).trans ?_)
    have htake : takeAll Char.isDigit (before r (.plain '\x7d' :: rest)) = .ok ([], before r (.plain '\x7d' :: rest)) :=
      takeAll_eq (fun _ hc => absurd hc List.not_mem_nil) (stops_isDigit rfl rest)
    have hopen : ∀ r, repeatNumber [] r = if true then .ok (none, r) else .error .refused := fun _ => rfl
    refine (bind_of_ok htake _).trans ((braces_end n hopen (by simp) hrest _).trans ?_)
    rw [Bool.and_true]
    rfl
  | between n m hle =>
    obtain rfl : n.digits ++ ',' :: (m.digits ++ ['\x7d']) = inside := (List.cons.inj hq).2
    rw [List.map_append, List.append_assoc, List.map_cons, List.map_append, List.cons_append, List.append_assoc]
    refine (braces_low n (stops_isDigit rfl _)).trans ?_
    have hnext : (m.digits.map Mark.plain ++ (['\x7d'].map Mark.plain ++ rest)).head? ≠ some .dangling := by
      cases m.digits <;> simp
    refine (bind_of_ok (accept_self ',' hnext) _).trans ((congrFun (if_pos rfl) _).trans ?_)
    refine (bind_of_ok (takeAll_eq m.isDigit (stops_isDigit rfl rest)) _).trans ?_
    exact braces_end n (fun _ => repeatNumber_eq m) (by simpa using hle) hrest _
  | once | optional | anyTimes | someTimes => cases hq

/-- What can stand after a part: neither a mark of greed nor a backslash alone. -/
def Follows (rest : List Mark) : Prop :=
  ∀ m ∈ rest.head?, m ≠ .dangling ∧ m ≠ .plain '?' ∧ m ≠ .plain '+'

theorem Follows.ne_dangling (h : Follows rest) : rest.head? ≠ some .dangling := fun hd => (h _ hd).1 rfl

theorem repeated_eq (least : Nat) (most : Option Nat) (p : Pattern) (ps : List Piece) (h : Follows rest) :
    repeated least most (⟨p, true⟩ :: ps) (before r rest) =
      .ok (⟨.times .greedy least most p, false⟩ :: ps, before r rest) := by
  have hgreed : greed (before r rest) = .ok (.greedy, before r rest) := by
    refine (bind_of_ok (accept_of_ne fun hm => (h _ hm).2.1 rfl) _).trans ((congrFun (if_neg (by simp)) _).trans ?_)
    exact (bind_of_ok (accept_of_ne fun hm => (h _ hm).2.2 rfl) _).trans (congrFun (if_neg (by simp)) _)
  exact bind_of_ok hgreed fun g => pure (⟨.times g least most p, false⟩ :: ps)

/-! ## Pieces -/

/-- What follows a character in a sequence. -/
def afterPlain (n : Nat) (whole : Bool) (acc : List Piece) (c : Char) : Read (List Piece) := do
  match c with
  | '[' => pieces n whole {} ((← setPiece {}) :: acc)
  | '?' => pieces n whole {} (← repeated 0 (some 1) acc)
  | '*' => pieces n whole {} (← repeated 0 none acc)
  | '+' => pieces n whole {} (← repeated 1 none acc)
  | '\x7b' =>
    match ← braces with
    | some (least, most) => pieces n whole {} (← repeated least most acc)
    | none => pieces n whole {} (ofChar {} c.toNat :: acc)
  | '.' => pieces n whole {} (⟨.set .notNewline, true⟩ :: acc)
  | '^' => pieces n whole {} (ofAnchor .textStart :: acc)
  | '$' => pieces n whole {} (ofAnchor .lastEnd :: acc)
  | _ => pieces n whole {} (ofChar {} c.toNat :: acc)

variable {n : Nat} {whole : Bool} {acc : List Piece}

theorem pieces_plain (hc : "|()".toList.contains c = false) (hrest : rest.head? ≠ some .dangling) :
    pieces (n + 1) whole {} acc (before r (.plain c :: rest)) = afterPlain n whole acc c (before r rest) := by
  have hbar : ¬ (c == '|' || c == ')') = true := by
    intro h
    rcases (Bool.or_eq_true_iff ..).1 h with h | h <;> obtain rfl := beq_iff_eq.1 h <;> cases hc
  refine (bind_of_ok (peek_eq _) _).trans ((congrFun (if_neg hbar) _).trans ?_)
  refine (bind_of_ok (advance_eq _ hrest) _).trans ?_
  refine (congrFun (if_neg (by simp)) _).trans ((congrFun (if_neg (by simp)) _).trans ?_)
  refine congrFun ?_ _
  unfold afterPlain
  split
  case h_9 => cases hc
  case h_10 => split <;> first | rfl | contradiction
  all_goals rfl

theorem escape_of_classOf? {k : SetItem} (h : classOf? false c = some k) :
    escape {} c r = .ok (⟨.set { items := [k] }, true⟩, r) := by
  unfold classOf? at h
  split at h <;> cases h <;> rfl

theorem pieces_spells (h : Spells text s) (hrest : rest.head? ≠ some .dangling) :
    pieces (n + 1) whole {} acc (before r (marks text ++ rest)) =
      pieces n whole {} (⟨.set s, true⟩ :: acc) (before r rest) := by
  cases h with
  | inClass hk =>
    refine (bind_of_ok (peek_eq _) _).trans ?_
    exact (bind_of_ok (advance_eq _ hrest) _).trans (bind_of_ok (escape_of_classOf? hk) _)
  | anyChar => exact pieces_plain rfl hrest
  | @ranges rs hne hrs =>
    have hnext : ((rangesText rs).map Mark.plain ++ .plain ']' :: rest).head? ≠ some .dangling := by
      cases rs <;> simp [rangesText]
    rw [marks_of_plain (not_mem_ranges hrs), List.map_append, List.append_assoc]
    exact (pieces_plain rfl hnext).trans (bind_of_ok (setPiece_ranges hne hrs hrest) _)
  | @char c hc hdot =>
    have hbounds : "|()".toList.contains c = false := by
      simp [ne_of_isSpecial hc (d := '|') rfl, ne_of_isSpecial hc (d := '(') rfl, ne_of_isSpecial hc (d := ')') rfl]
    rw [marks_of_plain (by simpa using (ne_of_isSpecial hc (d := '\\') rfl).symm)]
    refine (pieces_plain hbounds hrest).trans ?_
    unfold afterPlain
    split
    case h_6 => exact absurd rfl hdot
    case h_9 => rfl
    all_goals cases hc

theorem pieces_quantifier (hq : q.text ≠ []) (p : Pattern) (h : Follows rest) :
    pieces (n + 1) whole {} (⟨p, true⟩ :: acc) (before r (q.text.map .plain ++ rest)) =
      if q.isLegible then pieces n whole {} (⟨.times .greedy q.least q.most p, false⟩ :: acc) (before r rest)
      else .error .refused := by
  have hrest := h.ne_dangling
  by_cases hbraced : ∃ inside, q.text = '\x7b' :: inside
  · obtain ⟨inside, hinside⟩ := hbraced
    have hbraces := braces_eq (r := r) hinside hrest
    have hnext : (inside.map Mark.plain ++ rest).head? ≠ some .dangling := by
      cases inside with
      | nil => exact hrest
      | cons d ds => simp
    rw [hinside]
    refine (pieces_plain rfl hnext).trans ?_
    cases hlegible : q.isLegible with
    | false =>
      rw [hlegible] at hbraces
      exact bind_of_error hbraces _
    | true =>
      rw [hlegible] at hbraces
      exact (bind_of_ok hbraces _).trans (bind_of_ok (repeated_eq _ _ p acc h) _)
  · cases q with
    | once => exact absurd rfl hq
    | optional | anyTimes
    | someTimes => exact (pieces_plain rfl hrest).trans (bind_of_ok (repeated_eq _ _ p acc h) _)
    | exactly k | atLeast k | between k m hle => exact absurd ⟨_, rfl⟩ hbraced

end Read

/-! ## Reading -/

theorem Quantifier.isPlain_text (q : Quantifier) : '\\' ∉ q.text := by
  have hdigits : ∀ n : Numeral, '\\' ∉ n.digits := fun n h => by cases n.isDigit _ h
  cases q <;> simp [text, hdigits]

theorem Part.marks_append (p : Part) (ds : List Char) :
    marks (p.text ++ ds) = marks p.atom.text ++ (p.quantifier.text.map .plain ++ marks ds) := by
  rw [Part.text, List.append_assoc, p.atom.spells.marks_append, marks_append_of_plain p.quantifier.isPlain_text]

def Part.piece (p : Part) : Read.Piece := ⟨p.pattern, p.quantifier.text.isEmpty⟩

theorem Part.piece_of_ne {p : Part} (h : p.quantifier.text ≠ []) :
    p.piece = ⟨.times .greedy p.quantifier.least p.quantifier.most (.set p.atom.set), false⟩ := by
  obtain ⟨a, q⟩ := p
  cases q with
  | once => exact absurd rfl h
  | _ => rfl

theorem Part.piece_of_eq {p : Part} (h : p.quantifier.text = []) : p.piece = ⟨.set p.atom.set, true⟩ := by
  obtain ⟨a, q⟩ := p
  cases q with
  | once => rfl
  | _ => cases h

section

open Read

variable {r : Reader} {rest : List Mark} {n : Nat} {whole : Bool} {acc : List Piece}

theorem Spells.follows (h : Spells text s) (ms : List Mark) :
    Follows (marks text ++ ms) ∧ 0 < (marks text).length := by
  cases h with
  | inClass hk | anyChar => exact ⟨by rintro m ⟨⟩; simp, Nat.one_pos⟩
  | ranges hne hrs =>
    rw [marks_of_plain (not_mem_ranges hrs)]
    exact ⟨by rintro m ⟨⟩; simp, by simp⟩
  | char hc hdot =>
    rw [marks_of_plain (by simpa using (ne_of_isSpecial hc (d := '\\') rfl).symm)]
    refine ⟨?_, Nat.one_pos⟩
    rintro m ⟨⟩
    simp [ne_of_isSpecial hc (d := '?') rfl, ne_of_isSpecial hc (d := '+') rfl]

theorem pieces_part (p : Part) (h : Follows rest)
    (hn : (marks p.atom.text ++ (p.quantifier.text.map Mark.plain ++ rest)).length < n) : ∃ m, rest.length < m ∧
      pieces n whole {} acc (before r (marks p.atom.text ++ (p.quantifier.text.map .plain ++ rest))) =
        if p.quantifier.isLegible then pieces m whole {} (p.piece :: acc) (before r rest) else .error .refused := by
  have hspells := p.atom.spells
  have hpos := (hspells.follows rest).2
  have hnext : (p.quantifier.text.map Mark.plain ++ rest).head? ≠ some .dangling := by
    cases p.quantifier.text with
    | nil => exact h.ne_dangling
    | cons d ds => simp
  simp only [List.length_append, List.length_map] at hn
  obtain ⟨n, rfl⟩ : ∃ k, n = k + 1 := ⟨n - 1, by omega⟩
  rw [pieces_spells hspells hnext]
  by_cases hq : p.quantifier.text = []
  · have hlegible : p.quantifier.isLegible = true := by
      cases hp : p.quantifier with
      | once => rfl
      | _ => simp [hp, Quantifier.text] at hq
    refine ⟨n, by omega, ?_⟩
    rw [hlegible, if_pos rfl, Part.piece_of_eq hq, hq]
    rfl
  · have hlength := List.length_pos_iff.2 hq
    obtain ⟨n, rfl⟩ : ∃ k, n = k + 1 := ⟨n - 1, by omega⟩
    refine ⟨n, by omega, ?_⟩
    rw [pieces_quantifier hq _ h, Part.piece_of_ne hq]

theorem follows_parts (parts : List Part) (h : Follows rest) : Follows (marks (parts.flatMap Part.text) ++ rest) := by
  cases parts with
  | nil => exact h
  | cons p parts =>
    rw [List.flatMap_cons, p.marks_append, List.append_assoc]
    exact (p.atom.spells.follows _).1

theorem pieces_parts (parts : List Part) (h : Follows rest)
    (hn : (marks (parts.flatMap Part.text) ++ rest).length < n) :
    ∃ m, rest.length < m ∧ pieces n whole {} acc (before r (marks (parts.flatMap Part.text) ++ rest)) =
      if parts.all (·.quantifier.isLegible) then pieces m whole {} ((parts.map Part.piece).reverse ++ acc)
        (before r rest)
      else .error .refused := by
  induction parts generalizing n acc with
  | nil => exact ⟨n, hn, rfl⟩
  | cons p parts ih =>
    rw [List.flatMap_cons, p.marks_append, List.append_assoc, List.append_assoc] at hn ⊢
    obtain ⟨m, hm, hpart⟩ := @pieces_part r _ _ whole acc p (follows_parts parts h) hn
    obtain ⟨m', hm', hparts⟩ := @ih _ (p.piece :: acc) hm
    refine ⟨m', hm', ?_⟩
    rw [hpart, hparts]
    cases hp : p.quantifier.isLegible <;> simp [hp]

/-- The pieces of a flat pattern. -/
def Flat.pieces (f : Flat) : List Piece :=
  (if f.opened then [ofAnchor .textStart] else []) ++
    (f.parts.map Part.piece ++ if f.closed then [ofAnchor .lastEnd] else [])

/-- The marks of a flat pattern. -/
def Flat.marks (f : Flat) : List Mark :=
  f.startText.map .plain ++ (Pattern.marks f.body ++ f.endText.map .plain)

theorem Flat.isPlain_startText (f : Flat) : '\\' ∉ f.startText := by
  unfold startText
  split <;> simp

theorem Flat.isPlain_endText (f : Flat) : '\\' ∉ f.endText := by
  unfold endText
  split <;> simp

theorem marks_text (f : Flat) : marks f.text.toList = f.marks := by
  have hbody : marks (f.body ++ f.endText) = marks f.body ++ f.endText.map .plain := by
    unfold Flat.body
    induction f.parts with
    | nil => exact marks_of_plain f.isPlain_endText
    | cons p parts ih =>
      rw [List.flatMap_cons, List.append_assoc, p.marks_append, p.marks_append, ih]
      simp
  rw [Flat.text, String.toList_ofList, marks_append_of_plain f.isPlain_startText, hbody, Flat.marks]

theorem follows_endText (f : Flat) : Follows (f.endText.map .plain) := by
  unfold Flat.endText
  split <;> rintro m ⟨⟩
  simp

theorem pieces_endText (f : Flat) (hn : (f.endText.map Mark.plain).length < n) :
    pieces n whole {} acc (before r (f.endText.map .plain)) =
      .ok ((if f.closed then [ofAnchor .lastEnd] else []) ++ acc, before r []) := by
  unfold Flat.endText at hn ⊢
  cases hclosed : f.closed with
  | false =>
    obtain ⟨n, rfl⟩ : ∃ k, n = k + 1 := ⟨n - 1, by omega⟩
    rfl
  | true =>
    rw [hclosed] at hn
    obtain ⟨n, rfl⟩ : ∃ k, n = k + 2 := ⟨n - 2, by simp at hn; omega⟩
    exact (pieces_plain rfl (by simp)).trans rfl

theorem pieces_body (f : Flat) (hn : (marks f.body ++ f.endText.map Mark.plain).length < n) :
    pieces n whole {} acc (before r (marks f.body ++ f.endText.map .plain)) =
      if f.isLegible then
        .ok ((if f.closed then [ofAnchor .lastEnd] else []) ++ ((f.parts.map Part.piece).reverse ++ acc), before r [])
      else .error .refused := by
  obtain ⟨m, hm, hparts⟩ := @pieces_parts r _ _ whole acc f.parts (follows_endText f) hn
  rw [pieces_endText f hm] at hparts
  exact hparts

theorem pieces_flat (f : Flat) (hn : f.marks.length < n) :
    pieces n whole {} [] (before r f.marks) =
      if f.isLegible then .ok (f.pieces.reverse, before r []) else .error .refused := by
  unfold Flat.marks Flat.startText at hn ⊢
  unfold Flat.pieces
  cases hopened : f.opened with
  | false =>
    rw [hopened] at hn
    refine (pieces_body f hn).trans ?_
    cases f.closed <;> simp
  | true =>
    rw [hopened] at hn
    obtain ⟨n, rfl⟩ : ∃ k, n = k + 1 := ⟨n - 1, by omega⟩
    refine (pieces_plain rfl (follows_parts f.parts (follows_endText f)).ne_dangling).trans ?_
    refine (pieces_body f (Nat.lt_of_succ_lt_succ hn)).trans ?_
    cases f.closed <;> simp

end

/-! ## Matches -/

theorem Spells.folding (h : Spells text s) : s.folding = .exact := by
  cases h <;> rfl

theorem Part.isFlat_pattern (p : Part) : p.pattern.isFlat = true := by
  unfold pattern
  split
  · exact beq_iff_eq.2 p.atom.spells.folding
  · rfl

theorem Flat.mem_row {f : Flat} {p : Pattern} (h : p ∈ f.row) :
    (∃ a, p = .anchor a) ∨ ∃ part : Part, p = part.pattern := by
  unfold row at h
  rcases List.mem_append.1 h with h | h
  · split at h
    · exact .inl ⟨_, List.mem_singleton.1 h⟩
    · cases h
  rcases List.mem_append.1 h with h | h
  · obtain ⟨part, -, rfl⟩ := List.mem_map.1 h
    exact .inr ⟨part, rfl⟩
  · split at h
    · exact .inl ⟨_, List.mem_singleton.1 h⟩
    · cases h

theorem Flat.isFlat_pattern (f : Flat) : f.pattern.isFlat = true := by
  refine inOrder_induction (P := (·.isFlat = true)) rfl (fun _ _ hp hq => Bool.and_eq_true_iff.2 ⟨hp, hq⟩)
    fun p hp => ?_
  rcases mem_row hp with ⟨a, rfl⟩ | ⟨part, rfl⟩
  · rfl
  · exact part.isFlat_pattern

theorem behindFixed_of_isFlat {p : Pattern} (h : p.isFlat = true) : p.behindFixed = true := by
  fun_induction isFlat p with
  | case3 a b iha ihb =>
    obtain ⟨ha, hb⟩ := Bool.and_eq_true_iff.1 h
    exact Bool.and_eq_true_iff.2 ⟨iha ha, ihb hb⟩
  | case6 => cases h
  | _ => rfl

theorem Flat.ofItems_pieces (f : Flat) : ofItems (f.pieces.map (·.pattern)) = f.pattern := by
  have hpieces : f.pieces.map (·.pattern) = f.row := by
    unfold pieces row
    cases f.opened <;> cases f.closed <;> simp [Part.piece, Function.comp_def, Read.ofAnchor]
  unfold ofItems pattern
  rw [hpieces, List.filter_eq_self.2]
  intro p hp
  rcases mem_row hp with ⟨a, rfl⟩ | ⟨part, rfl⟩
  · rfl
  · unfold Part.pattern
    split <;> rfl

theorem Read.pattern_flat (f : Flat) (characters : Characters) :
    Read.pattern (f.marks.length + 1) { marks := f.marks, characters } =
    if f.isLegible then .ok (f.pattern, { marks := [], characters }) else .error .refused := by
  have hpieces := @pieces_flat { marks := f.marks, characters } _ true f (Nat.lt_succ_self _)
  cases hlegible : f.isLegible with
  | false =>
    rw [hlegible] at hpieces
    exact bind_of_error (bind_of_error (bind_of_error hpieces _) _) _
  | true =>
    rw [hlegible] at hpieces
    have hsequence : sequence (f.marks.length + 1) true {} { marks := f.marks, characters } =
        .ok (f.pattern, { marks := [], characters }) := by
      refine (bind_of_ok hpieces _).trans ?_
      rw [List.reverse_reverse, f.ofItems_pieces]
      rfl
    have hchoices : choices (sequence (f.marks.length + 1)) true {} { marks := f.marks, characters } =
        .ok (f.pattern, { marks := [], characters }) :=
      (bind_of_ok hsequence _).trans ((bind_of_ok rfl _).trans rfl)
    have hfixed := behindFixed_of_isFlat f.isFlat_pattern
    refine (bind_of_ok hchoices _).trans ((bind_of_ok rfl _).trans ?_)
    change (if (!f.pattern.behindFixed) = true then fail >>= fun _ => pure f.pattern else pure f.pattern : Read Pattern)
      { marks := [], characters } = _
    rw [hfixed]
    rfl

/-- A flat pattern is read as the row of its parts, unless a number has too many digits. -/
theorem read_text (f : Flat) (characters : Characters) :
    read f.text characters = if f.isLegible then .ok f.pattern else .error .refused := by
  have hhead : ¬ (f.marks.head? == some .dangling) = true := by
    have hrest := (follows_parts f.parts (follows_endText f)).ne_dangling
    unfold Flat.marks Flat.startText
    cases f.opened with
    | false => simpa [Flat.body] using hrest
    | true => simp
  have hpattern := Read.pattern_flat f characters
  unfold read
  rw [marks_text]
  refine (if_neg hhead).trans ?_
  cases hlegible : f.isLegible with
  | false =>
    rw [hlegible] at hpattern
    exact congrArg (· >>= fun x => pure x.1) hpattern
  | true =>
    rw [hlegible] at hpattern
    exact congrArg (· >>= fun x => pure x.1) hpattern

/-! ## Matches -/

theorem Spot.crosses_nil_iff {s t : Spot} : s.Crosses [] t ↔ t = s := by
  constructor
  · rintro ⟨hafter, hbefore⟩
    cases s
    cases t
    exact congr (congrArg Spot.mk hbefore) hafter.symm
  · rintro rfl
    exact ⟨rfl, rfl⟩

theorem Spot.crosses_append_iff {s t : Spot} {ds : List Char} :
    s.Crosses (cs ++ ds) t ↔ ∃ m, s.Crosses cs m ∧ m.Crosses ds t := by
  constructor
  · rintro ⟨hafter, hbefore⟩
    refine ⟨⟨cs.reverse ++ s.before, ds ++ t.after⟩, ⟨?_, rfl⟩, rfl, ?_⟩
    · rw [hafter, List.append_assoc]
    · rw [hbefore, List.reverse_append, List.append_assoc]
  · rintro ⟨m, ⟨hafter, hbefore⟩, hafter', hbefore'⟩
    exact ⟨by rw [hafter, hafter', List.append_assoc], by rw [hbefore', hbefore, List.reverse_append,
      List.append_assoc]⟩

theorem Part.reaches_iff (p : Part) (s t : Spot) : Reaches p.pattern s t ↔ ∃ cs, p.Accepts cs ∧ s.Crosses cs t := by
  obtain ⟨a, q⟩ := p
  cases q with
  | once =>
    constructor
    · rintro ⟨c, hc, hcross⟩
      exact ⟨[c], ⟨Nat.le_refl 1, by simp [Quantifier.most], by simpa using hc⟩, hcross⟩
    · rintro ⟨cs, hcs, hcross⟩
      obtain ⟨c, rfl⟩ := List.length_eq_one_iff.1 (Nat.le_antisymm (hcs.le_most 1 rfl) hcs.least_le)
      exact ⟨c, hcs.has c List.mem_cons_self, hcross⟩
  | _ => exact Iff.rfl

theorem reaches_inOrder_cons (p : Pattern) (ps : List Pattern) (s t : Spot) :
    Reaches (inOrder (p :: ps)) s t ↔ ∃ m, Reaches p s m ∧ Reaches (inOrder ps) m t := by
  cases ps with
  | nil => exact ⟨fun h => ⟨t, h, rfl⟩, fun ⟨m, hm, ht⟩ => (show t = m from ht) ▸ hm⟩
  | cons q ps => exact Iff.rfl

theorem reaches_parts (parts : List Part) (after : List Pattern) (s t : Spot) :
    Reaches (inOrder (parts.map Part.pattern ++ after)) s t ↔
      ∃ pieces m, List.Forall₂ Part.Accepts parts pieces ∧ s.Crosses pieces.flatten m ∧
        Reaches (inOrder after) m t := by
  induction parts generalizing s with
  | nil =>
    constructor
    · intro h
      exact ⟨[], s, .nil, Spot.crosses_nil_iff.2 rfl, h⟩
    · rintro ⟨pieces, m, hpieces, hcross, h⟩
      cases hpieces
      obtain rfl := Spot.crosses_nil_iff.1 hcross
      exact h
  | cons p parts ih =>
    rw [List.map_cons, List.cons_append, reaches_inOrder_cons]
    constructor
    · rintro ⟨m, hm, ht⟩
      obtain ⟨cs, hcs, hcross⟩ := (p.reaches_iff s m).1 hm
      obtain ⟨pieces, m', hpieces, hcross', h⟩ := (ih m).1 ht
      exact ⟨cs :: pieces, m', .cons hcs hpieces, Spot.crosses_append_iff.2 ⟨m, hcross, hcross'⟩, h⟩
    · rintro ⟨pieces, m', hpieces, hcross, h⟩
      cases hpieces with
      | cons hcs hpieces =>
        obtain ⟨m, hm, hcross'⟩ := Spot.crosses_append_iff.1 hcross
        exact ⟨m, (p.reaches_iff s m).2 ⟨_, hcs, hm⟩, (ih m).2 ⟨_, m', hpieces, hcross', h⟩⟩

theorem Flat.reaches_iff (f : Flat) (cs : List Char) (t : Spot) : Reaches f.pattern { after := cs } t ↔
    Reaches (inOrder (f.parts.map Part.pattern ++ if f.closed then [.anchor .lastEnd] else [])) { after := cs } t := by
  unfold pattern row
  cases f.opened with
  | false => exact Iff.rfl
  | true =>
    refine (reaches_inOrder_cons _ _ _ _).trans ⟨?_, fun h => ⟨_, ⟨rfl, rfl⟩, h⟩⟩
    rintro ⟨m, ⟨rfl, -⟩, h⟩
    exact h

/-- The mark of the end holds at the end, and nowhere else where the whole text is taken. -/
theorem reaches_closing (closed : Bool) (m : Spot) (before : List Char) :
    Reaches (inOrder (if closed then [.anchor .lastEnd] else [])) m { before, after := [] } ↔
      m = { before, after := [] } := by
  cases closed with
  | false => exact eq_comm
  | true =>
    refine ⟨fun h => h.1.symm, ?_⟩
    rintro rfl
    exact ⟨rfl, rfl⟩

/-- A flat pattern matches exactly the texts that it accepts. -/
theorem fullMatch_pattern_iff (f : Flat) (text : String) : f.pattern.fullMatch text = .ok true ↔ f.Accepts text := by
  rw [fullMatch_eq_true_iff f.isFlat_pattern]
  constructor
  · rintro ⟨before, h⟩
    obtain ⟨pieces, m, hpieces, hcross, hclosing⟩ := (reaches_parts _ _ _ _).1 ((f.reaches_iff _ _).1 h)
    rw [(reaches_closing _ _ _).1 hclosing] at hcross
    exact ⟨pieces, (hcross.1.trans (List.append_nil _)).symm, hpieces⟩
  · rintro ⟨pieces, hflatten, hpieces⟩
    refine ⟨pieces.flatten.reverse, (f.reaches_iff _ _).2 ((reaches_parts _ _ _ _).2 ?_)⟩
    refine ⟨pieces, _, hpieces, ⟨?_, ?_⟩, (reaches_closing _ _ _).2 rfl⟩
    · exact hflatten.symm.trans (List.append_nil _).symm
    · exact (List.append_nil _).symm

end ApiSchema.Pattern
