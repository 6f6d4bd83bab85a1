import ApiSchema.Proofs.WholeNumbers
import ApiSchema.Source.Literal

/-!
# Literals that read back

A text is written as a literal with quotes around it and with escapes for the characters that cannot stand there or
cannot be printed. The literal has the value that it was written for (`piece?_quoted`), whatever characters the text
has: each escape stands for its character, whatever comes after it (`unescape?_escapeChar`).

So has a whole number, as long as it has no more digits than can be read (`numberValue?_toDigits`).
-/
namespace ApiSchema.Source

open Text

variable {n width : Nat} {c : Char} {cs : List Char}

/-! ## Hexadecimal digits -/

theorem basedDigit?_digitChar {k : Nat} (h : k < 16) : basedDigit? 16 k.digitChar = some k := by
  interval_cases k <;> decide

theorem mapM_toDigits (n : Nat) :
    ∃ vs, (Nat.toDigits 16 n).mapM (basedDigit? 16) = some vs ∧ vs.foldl (fun a v => a * 16 + v) 0 = n := by
  induction n using Nat.strongRecOn with
  | ind n ih =>
    rw [Nat.toDigits_eq_if (by decide)]
    split
    · rename_i hn
      exact ⟨[n], by simp [basedDigit?_digitChar hn], by simp⟩
    · rename_i hn
      obtain ⟨vs, hvs, hfold⟩ := ih (n / 16) (by omega)
      have hlast : basedDigit? 16 (n % 16).digitChar = some (n % 16) := basedDigit?_digitChar (by omega)
      refine ⟨vs ++ [n % 16], by simp [List.mapM_append, hvs, hlast], ?_⟩
      rw [List.foldl_append, hfold]
      simp
      omega

theorem exists_of_mem_toDigits (h : c ∈ Nat.toDigits 16 n) : ∃ k < 16, c = k.digitChar := by
  induction n using Nat.strongRecOn with
  | ind n ih =>
    rw [Nat.toDigits_eq_if (by decide)] at h
    split at h
    · rename_i hn
      exact ⟨n, hn, List.mem_singleton.1 h⟩
    · rcases List.mem_append.1 h with h | h
      · exact ih (n / 16) (by omega) h
      · exact ⟨n % 16, by omega, List.mem_singleton.1 h⟩

theorem exists_of_mem_hex (h : c ∈ hex width n) : ∃ k < 16, c = k.digitChar := by
  rcases List.mem_append.1 h with h | h
  · exact ⟨0, by decide, List.eq_of_mem_replicate h⟩
  · exact exists_of_mem_toDigits h

theorem length_hex (hwidth : 0 < width) (h : n < 16 ^ width) : (hex width n).length = width := by
  have hlength := (Nat.length_toDigits_le_iff (by decide : 1 < 16) hwidth).2 h
  simp only [hex, List.length_append, List.length_replicate]
  omega

/-- Zeros in front do not change the number that some digits stand for. -/
theorem mapM_hex (width n : Nat) :
    ∃ vs, (hex width n).mapM (basedDigit? 16) = some vs ∧ vs.foldl (fun a v => a * 16 + v) 0 = n := by
  obtain ⟨vs, hvs, hfold⟩ := mapM_toDigits n
  have hzeros : ∀ k, (List.replicate k '0').mapM (basedDigit? 16) = some (List.replicate k 0) := by
    intro k
    induction k with
    | zero => rfl
    | succ k ih =>
      have hzero : basedDigit? 16 '0' = some 0 := by decide
      simp [List.replicate_succ, hzero, ih]
  have hnothing : ∀ k, (List.replicate k 0).foldl (fun a v => a * 16 + v) 0 = 0 := by
    intro k
    induction k with
    | zero => rfl
    | succ k ih => simpa [List.replicate_succ] using ih
  refine ⟨List.replicate (width - (Nat.toDigits 16 n).length) 0 ++ vs, ?_, ?_⟩
  · simp [hex, List.mapM_append, hzeros, hvs]
  · rw [List.foldl_append, hnothing, hfold]

/-! ## Escapes -/

/-- What some hexadecimal digits stand for, and how many characters they take with the one in front. -/
def hexEscape? (width : Nat) (digits : List Char) : Option (List Nat × Nat) :=
  if (digits.take width).length == width then
    match (digits.take width).mapM (basedDigit? 16) with
    | some vs =>
      if vs.foldl (fun a v => a * 16 + v) 0 ≤ 0x10FFFF then
        some ([vs.foldl (fun a v => a * 16 + v) 0], width + 1) else none
    | none => none
  else none

theorem escape?_x (digits : List Char) : escape? false ('x' :: digits) = hexEscape? 2 digits := rfl

theorem escape?_u (digits : List Char) : escape? false ('u' :: digits) = hexEscape? 4 digits := rfl

theorem escape?_U (digits : List Char) : escape? false ('U' :: digits) = hexEscape? 8 digits := rfl

theorem hexEscape?_hex (hwidth : 0 < width) (h : n < 16 ^ width) (hn : n ≤ 0x10FFFF) (rest : List Char) :
    hexEscape? width (hex width n ++ rest) = some ([n], width + 1) := by
  have htake : (hex width n ++ rest).take width = hex width n := List.take_left' (length_hex hwidth h)
  obtain ⟨vs, hvs, hfold⟩ := mapM_hex width n
  simp [hexEscape?, htake, length_hex hwidth h, hvs, hfold, hn]

theorem unescape?_append (taken rest : List Char) :
    unescape? false taken.length (taken ++ rest) = unescape? false 0 rest := by
  induction taken with
  | nil => rfl
  | cons c taken ih => simpa [unescape?] using ih

/-- An escape stands for what it says, and what follows for itself. -/
theorem unescape?_backslash {sequence : List Char} {out : List Nat} {rest : List Char}
    (h : escape? false (sequence ++ rest) = some (out, sequence.length)) :
    unescape? false 0 ('\\' :: sequence ++ rest) = (unescape? false 0 rest).map (out ++ ·) := by
  simp only [List.cons_append, unescape?, BEq.rfl, if_true, h, Option.bind_eq_bind, Option.bind_some, unescape?_append]
  cases unescape? false 0 rest <;> rfl

/-- One of the two quote characters. -/
def IsQuote (q : Char) : Prop := q = '\'' ∨ q = '"'

theorem isQuote_quoteFor (cs : List Char) : IsQuote (quoteFor cs) := by
  unfold quoteFor
  split
  · exact .inr rfl
  · exact .inl rfl

section

variable {q c : Char}

/-- How a character stands between quotes: as it is, or as a backslash and a sequence that stands for it. -/
inductive Escaped (q c : Char) : List Char → Prop
  | plain (hq : c ≠ q) (hb : c ≠ '\\') (hp : isPrintable c = true) : Escaped q c [c]
  | sequence {d : Char} {ds : List Char} (hd : d = q ∨ d ∈ "\\nrtxuU".toList)
      (hds : ∀ x ∈ ds, ∃ k < 16, x = k.digitChar)
    (h : ∀ rest, escape? false (d :: ds ++ rest) = some ([c.toNat], ds.length + 1)) : Escaped q c ('\\' :: d :: ds)

theorem Escaped.letter {d : Char} (hd : d = q ∨ d ∈ "\\nrtxuU".toList)
    (h : ∀ rest, escape? false (d :: rest) = some ([c.toNat], 1)) : Escaped q c ['\\', d] :=
  .sequence hd nofun h

theorem Escaped.hex {d : Char} (hd : d ∈ "\\nrtxuU".toList) (hwidth : 0 < width) (hc : c.toNat < 16 ^ width)
    (h : ∀ digits, escape? false (d :: digits) = hexEscape? width digits) :
    Escaped q c ('\\' :: d :: Text.hex width c.toNat) := by
  have hvalid : c.toNat ≤ 0x10FFFF := by
    have := c.valid
    unfold UInt32.isValidChar Nat.isValidChar at this
    change c.val.toNat ≤ _
    omega
  refine .sequence (.inr hd) (fun x hx => exists_of_mem_hex hx) fun rest => ?_
  rw [List.cons_append, h, hexEscape?_hex hwidth hc hvalid, length_hex hwidth hc]

theorem escaped_escapeChar (hq : IsQuote q) (c : Char) : Escaped q c (escapeChar q c) := by
  unfold escapeChar
  dsimp only
  split
  · rename_i hspecial
    rcases Bool.or_eq_true_iff.1 hspecial with h | h
    · obtain rfl : c = q := eq_of_beq h
      rcases hq with rfl | rfl
      · exact .letter (.inl rfl) fun _ => rfl
      · exact .letter (.inl rfl) fun _ => rfl
    · obtain rfl : c = '\\' := eq_of_beq h
      exact .letter (.inr (by decide)) fun _ => rfl
  · rename_i hplain
    split
    · rename_i hc
      obtain rfl : c = '\n' := eq_of_beq hc
      exact .letter (.inr (by decide)) fun _ => rfl
    split
    · rename_i hc
      obtain rfl : c = '\r' := eq_of_beq hc
      exact .letter (.inr (by decide)) fun _ => rfl
    split
    · rename_i hc
      obtain rfl : c = '\t' := eq_of_beq hc
      exact .letter (.inr (by decide)) fun _ => rfl
    split
    · rename_i hp
      simp only [Bool.or_eq_true, beq_iff_eq, not_or] at hplain
      exact .plain hplain.1 hplain.2 hp
    split
    · exact .hex (by decide) (by decide) (by assumption) escape?_x
    split
    · exact .hex (by decide) (by decide) (by assumption) escape?_u
    · have hlt : c.toNat < 16 ^ 8 := c.val.toNat_lt
      exact .hex (by decide) (by decide) hlt escape?_U

/-- An escaped character stands for the character, whatever comes after it. -/
theorem unescape?_escapeChar (hq : IsQuote q) (c : Char) (rest : List Char) :
    unescape? false 0 (escapeChar q c ++ rest) = (unescape? false 0 rest).map (c.toNat :: ·) := by
  have hescaped := escaped_escapeChar hq c
  generalize escapeChar q c = written at hescaped
  cases hescaped with
  | plain _ hb _ =>
    have hc : (c == '\\') = false := by simpa using hb
    simp only [List.singleton_append, unescape?, hc, if_neg Bool.false_ne_true]
    cases unescape? false 0 rest <;> rfl
  | sequence _ _ h => exact unescape?_backslash (h rest)

theorem unescape?_flatMap (hq : IsQuote q) (cs : List Char) :
    unescape? false 0 (cs.flatMap (escapeChar q)) = some (cs.map Char.toNat) := by
  induction cs with
  | nil => rfl
  | cons c cs ih =>
    rw [List.flatMap_cons, unescape?_escapeChar hq, ih]
    rfl

/-- No line ends between the quotes, and there is no NUL. -/
theorem not_mem_escapeChar (hq : IsQuote q) (c : Char) {x : Char} (hx : x ∈ ['\n', '\r', '\x00']) :
    x ∉ escapeChar q c := by
  have hprint : isPrintable x = false := by
    have hall : (['\n', '\r', '\x00'].all fun x => !isPrintable x) = true := by decide +kernel
    simpa using List.all_eq_true.1 hall x hx
  have hletter : x ∉ "\\nrtxuU".toList ∧ x ≠ '\'' ∧ x ≠ '"' ∧ ∀ k : Nat, x ≠ k.digitChar := by
    simp only [List.mem_cons, List.not_mem_nil, or_false] at hx
    rcases hx with rfl | rfl | rfl
    all_goals exact ⟨by decide, by decide, by decide, fun k => (Nat.digitChar_ne _ (by decide)).symm⟩
  have hescaped := escaped_escapeChar hq c
  generalize escapeChar q c = written at hescaped
  intro hmem
  cases hescaped with
  | plain _ _ hp =>
    rw [← List.mem_singleton.1 hmem, hprint] at hp
    cases hp
  | @sequence d ds hd hds _ =>
    rcases List.mem_cons.1 hmem with rfl | hmem
    · exact hletter.1 (by decide)
    rcases List.mem_cons.1 hmem with rfl | hmem
    · rcases hd with rfl | hd
      · exact hq.elim hletter.2.1 hletter.2.2.1
      · exact hletter.1 hd
    · obtain ⟨k, -, hk⟩ := hds x hmem
      exact hletter.2.2.2 k hk

theorem not_mem_flatMap (hq : IsQuote q) (cs : List Char) {x : Char} (hx : x ∈ ['\n', '\r', '\x00']) :
    x ∉ cs.flatMap (escapeChar q) := by
  intro hmem
  obtain ⟨c, -, hc⟩ := List.mem_flatMap.1 hmem
  exact not_mem_escapeChar hq c hx hc

/-- The quote itself does not stand at the start of an escaped character. -/
theorem exists_escapeChar (hq : IsQuote q) (c : Char) : ∃ d ds, escapeChar q c = d :: ds ∧ d ≠ q := by
  have hescaped := escaped_escapeChar hq c
  generalize escapeChar q c = written at hescaped
  cases hescaped with
  | plain hne _ _ => exact ⟨c, [], rfl, hne⟩
  | @sequence d ds _ _ _ =>
    refine ⟨'\\', d :: ds, rfl, ?_⟩
    rcases hq with rfl | rfl <;> decide

end

/-! ## Texts -/

theorem unifyLines_of_not_mem (h : '\r' ∉ cs) : unifyLines cs = cs := by
  fun_induction unifyLines cs with
  | case1 => rfl
  | case2 rest ih | case3 rest hne ih => simp at h
  | case4 c rest _ _ ih => rw [ih fun hr => h (List.mem_cons_of_mem c hr)]

theorem breaksLine_of_not_mem (h : '\n' ∉ cs) : breaksLine cs = false := by
  fun_induction breaksLine cs with
  | case1 => rfl
  | case2 c rest ih => exact ih fun hr => h (by simp [hr])
  | case3 c rest hne ih =>
    rw [ih fun hr => h (List.mem_cons_of_mem c hr), Bool.or_false]
    exact beq_eq_false_iff_ne.2 fun hc => h (hc ▸ List.mem_cons_self)

/-- A literal in one pair of quotes has the value that its inside stands for. -/
theorem piece?_of_quotes {inside : List Char} {content : List Nat} {q : Char} (hq : IsQuote q)
    (hcontrol : ∀ x ∈ ['\n', '\r', '\x00'], x ∉ inside) (hstart : ∀ d ∈ inside.head?, d ≠ q)
    (hinside : unescape? false 0 inside = some content) :
    piece? (String.ofList (q :: inside ++ [q])) = some ⟨false, content⟩ := by
  have hunquote : ∀ x ∈ ['\n', '\r', '\x00'], x ∉ q :: inside ++ [q] := by
    intro x hx hmem
    have hne : x ≠ q := by
      rintro rfl
      rcases hq with rfl | rfl <;> simp at hx
    simp [hne, hcontrol x hx] at hmem
  have hlines : unifyLines (q :: inside ++ [q]) = q :: inside ++ [q] := unifyLines_of_not_mem (hunquote _ (by decide))
  have hnul : (q :: inside ++ [q]).contains '\x00' = false := by
    simpa using hunquote _ (by decide)
  have hbreaks : breaksLine inside = false := breaksLine_of_not_mem (hcontrol _ (by decide))
  have hquote : (q == '\'' || q == '"') = true := by rcases hq with rfl | rfl <;> rfl
  have hflags : (q :: inside ++ [q]).takeWhile (fun c => !(c == '\'' || c == '"')) = [] := by
    rw [List.cons_append, List.takeWhile_cons, hquote]
    rfl
  have hquoted : (q :: inside ++ [q]).dropWhile (fun c => !(c == '\'' || c == '"')) = q :: inside ++ [q] := by
    rw [List.cons_append, List.dropWhile_cons, hquote]
    rfl
  have htriple : (decide (6 ≤ (q :: inside ++ [q]).length) && (q :: inside ++ [q]).take 3 == [q, q, q]) = false := by
    cases inside with
    | nil => rfl
    | cons d ds => simp [hstart d rfl]
  have hwidth : ((q :: inside ++ [q]).drop 1).take ((q :: inside ++ [q]).length - 2 * 1) = inside := by simp
  have hhead : (q :: inside ++ [q]).head? = some q := rfl
  have hempty : String.ofList ([].map Char.toLower) = "" := rfl
  unfold piece?
  simp only [String.toList_ofList, hlines, hnul, hflags, hquoted, hempty, hhead, if_neg Bool.false_ne_true,
    Option.bind_eq_bind, Option.bind_some, htriple, hwidth, hbreaks, Bool.not_false, Bool.true_and,
      Bool.false_and, hinside]
  rfl

theorem piece?_quoted (s : String) : piece? (quoted s) = some ⟨false, s.toList.map Char.toNat⟩ := by
  have hq := isQuote_quoteFor s.toList
  have hstart : ∀ d ∈ (s.toList.flatMap (escapeChar (quoteFor s.toList))).head?, d ≠ quoteFor s.toList := by
    generalize quoteFor s.toList = q at hq
    intro d hd
    cases hs : s.toList with
    | nil => simp [hs] at hd
    | cons c cs =>
      obtain ⟨e, es, he, hne⟩ := exists_escapeChar hq c
      rw [hs, List.flatMap_cons, he, List.cons_append, List.head?_cons, Option.mem_some] at hd
      rwa [← hd]
  exact piece?_of_quotes hq (fun x hx => not_mem_flatMap hq s.toList hx) hstart (unescape?_flatMap hq s.toList)

/-! ## Whole numbers -/

/-- Only zero is written with a zero in front. -/
theorem eq_zero_of_head?_toDigits (h : (Nat.toDigits 10 n).head? = some '0') : n = 0 := by
  induction n using Nat.strongRecOn with
  | ind n ih =>
    rw [Nat.toDigits_eq_if (by decide)] at h
    split at h
    · rename_i hn
      interval_cases n
      · rfl
      all_goals exact absurd h (by decide)
    · rw [List.head?_append_of_ne_nil _ Nat.toDigits_ne_nil] at h
      have := ih (n / 10) (by omega) h
      omega

/-- No letter stands among digits, as it does after the zero of a number in another base. -/
theorem numberValue?_of_isDigit (h : ∀ c ∈ cs, c.isDigit = true) :
    numberValue? (String.ofList cs) = decimalValue? cs := by
  have hletter : ∀ x, x.isDigit = false → x ∉ cs := by
    intro x hx hmem
    rw [h x hmem] at hx
    cases hx
  unfold numberValue?
  rw [String.toList_ofList]
  dsimp only
  split
  all_goals first
    | rfl
    | exact absurd (List.mem_cons_of_mem _ List.mem_cons_self) (hletter _ rfl)

theorem numberValue?_toDigits (h : n < 10 ^ maxDigits) :
    numberValue? (String.ofList (Nat.toDigits 10 n)) = some (.int n) := by
  have hdigits : ∀ c ∈ Nat.toDigits 10 n, c.isDigit = true :=
    fun c => Nat.isDigit_of_mem_toDigits (by decide) (by decide)
  have hread : readDigits (Nat.toDigits 10 n) = ((Nat.toDigits 10 n).map fun c => c.toNat - '0'.toNat, []) :=
    readDigitsFrom_of_isDigit hdigits false
  have hvalue := digitsToNat_map (Nat.toDigits 10 n)
  rw [Nat.ofDigitChars_ten_toDigits] at hvalue
  have hlength : (Nat.toDigits 10 n).length ≤ maxDigits :=
    (Nat.length_toDigits_le_iff (by decide) (by decide)).2 h
  rw [numberValue?_of_isDigit hdigits]
  obtain ⟨d, ds, hd⟩ := List.exists_cons_of_ne_nil (Nat.toDigits_ne_nil (b := 10) (n := n))
  have hfront : (d.toNat - '0'.toNat == 0 && (ds.map fun c => c.toNat - '0'.toNat).any (· != 0)) = false := by
    by_cases hzero : d = '0'
    · subst hzero
      obtain rfl : n = 0 := eq_zero_of_head?_toDigits (by rw [hd]; rfl)
      obtain rfl : ds = [] := (List.cons.inj hd).2.symm
      rfl
    · have hnonzero := Text.of_isDigit (p := fun c => c == '0' || c.toNat - '0'.toNat != 0) (by decide)
        (hdigits d (hd ▸ List.mem_cons_self))
      have hvalue : (d.toNat - '0'.toNat == 0) = false := by simpa [hzero] using hnonzero
      rw [hvalue, Bool.false_and]
  rw [hd] at hread hvalue hlength ⊢
  simp only [decimalValue?, hread, List.map_cons, hfront, if_neg Bool.false_ne_true, List.length_map]
  rw [List.length_cons] at hlength
  rw [List.map_cons] at hvalue
  rw [if_neg (Nat.not_lt.2 hlength), hvalue]

end ApiSchema.Source
