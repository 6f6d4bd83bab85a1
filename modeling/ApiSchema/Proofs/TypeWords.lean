import ApiSchema.Proofs.Literals
import ApiSchema.TypeExpr.Read

/-!
# The words of a text

A text of a type is cut into words before it is read. Blanks only keep words apart (`Worded.blank`), and a mark is a
word whatever comes after it (`Worded.mark`). Every other word ends where nothing can go on with it: at the end of the
text, at a bracket or comma, or at a bar after a blank (`IsBoundary`). So a name, a number or a quoted text is the word
that it was written for (`isCut_name`, `isCut_toString`, `isCut_quoted`), and texts with marks between them have the
words of each (`Lexes.join`).
-/
namespace ApiSchema.TypeExpr

open Text

/-! ## Separators -/

section

variable {α : Type} (sep : α)

theorem intercalate_cons (xs : List α) (xss : List (List α)) :
    [sep].intercalate (xs :: xss) = xs ++ xss.flatMap (sep :: ·) := by
  induction xss generalizing xs with
  | nil => simp
  | cons ys xss ih => simp [List.intercalate_cons_cons, ih]

theorem length_le_intercalate {xs : List α} {xss : List (List α)} (h : xs ∈ xss) :
    xs.length ≤ ([sep].intercalate xss).length := by
  cases xss with
  | nil => cases h
  | cons ys xss =>
    rw [intercalate_cons, List.length_append]
    rcases List.mem_cons.1 h with rfl | h
    · omega
    · have hsublist := List.sublist_flatten_of_mem (List.mem_map_of_mem (f := (sep :: ·)) h)
      have hlength := hsublist.length_le
      rw [← List.flatMap_def, List.length_cons] at hlength
      omega

theorem length_le_flatMap (xss : List (List α)) : xss.length ≤ (xss.flatMap (sep :: ·)).length := by
  induction xss with
  | nil => exact Nat.le_refl 0
  | cons xs xss ih =>
    rw [List.flatMap_cons, List.length_append, List.length_cons, List.length_cons]
    omega

end

/-! ## Cutting words -/

/-- Characters with some words, however many more words there may be. -/
def Worded (cs : List Char) (ws : List Word) : Prop := ∀ n, cs.length ≤ n → wordsFrom n cs = ws

section

variable {c : Char} {cs rest : List Char} {w : Word} {ws more : List Word}

theorem worded_nil : Worded [] [] := by
  intro n _
  cases n <;> rfl

theorem Worded.blank (hc : isBlank c = true) (h : Worded cs ws) : Worded (c :: cs) ws := by
  intro n hn
  cases n with
  | zero => cases hn
  | succ n =>
    have hcs := h (n + 1) (by rw [List.length_cons] at hn; omega)
    simpa [wordsFrom, hc] using hcs

theorem Worded.cons (hc : isBlank c = false) (hword : word (c :: cs) = (w, rest)) (hlength : rest.length ≤ cs.length)
    (h : Worded rest ws) : Worded (c :: cs) (w :: ws) := by
  intro n hn
  cases n with
  | zero => cases hn
  | succ n =>
    have hrest := h n (by rw [List.length_cons] at hn; omega)
    simp [wordsFrom, hc, hword, hrest]

theorem length_wordsFrom_le (n : Nat) (cs : List Char) : (wordsFrom n cs).length ≤ n := by
  induction n generalizing cs with
  | zero => exact Nat.le_refl 0
  | succ n ih =>
    unfold wordsFrom
    split
    · exact Nat.zero_le _
    · exact Nat.succ_le_succ (ih _)

theorem words_of_isBlankText {s : String} (h : isBlankText s = true) : words s = [] := by
  have hnone : s.toList.dropWhile isBlank = [] := List.dropWhile_eq_nil_iff.2 (List.all_eq_true.1 h)
  rw [words]
  cases s.length with
  | zero => rfl
  | succ n => rw [wordsFrom, hnone]

/-- Characters of a class end where none of them follows. -/
theorem span_append {p : Char → Bool} (h : ∀ c ∈ cs, p c = true) (hrest : ∀ c ∈ rest.head?, p c = false) :
    (cs ++ rest).takeWhile p = cs ∧ (cs ++ rest).dropWhile p = rest := by
  rw [List.takeWhile_append_of_pos h, List.dropWhile_append_of_pos h]
  cases rest with
  | nil => simp
  | cons c rest => simp [hrest c rfl]

/-! ## Marks and boundaries -/

/-- A character that starts no quoted text and no number. -/
def startsPlain (c : Char) : Bool := !(c == '\'' || c == '"') && c != '-' && !isDecimalDigit c

theorem numberLength?_of_startsPlain (hc : startsPlain c = true) (cs : List Char) : numberLength? (c :: cs) = none := by
  simp only [startsPlain, Bool.and_eq_true, bne_iff_ne, Bool.not_eq_true'] at hc
  unfold numberLength?
  split
  · rename_i heq
    exact absurd (List.cons.inj heq).1 hc.1.2
  · simp [digitsLength?, hc.2]

/-- What is neither a quoted text nor a number is told by its first characters. -/
theorem word_of_startsPlain (hc : startsPlain c = true) (cs : List Char) :
    word (c :: cs) =
      if (c :: cs).take 3 == ['.', '.', '.'] then (⟨.ellipsis, String.ofList ((c :: cs).take 3)⟩, (c :: cs).drop 3)
      else if isNameStart c then
        (⟨.name, String.ofList ((c :: cs).takeWhile isNamePart ++
          (moreParts (c :: cs).length ((c :: cs).dropWhile isNamePart)).1)⟩,
          (moreParts (c :: cs).length ((c :: cs).dropWhile isNamePart)).2)
      else (⟨if "[],|()".toList.contains c then .punctuation else .other, String.ofList [c]⟩, cs) := by
  have hquote : (c == '\'' || c == '"') = false := by
    simp only [startsPlain, Bool.and_eq_true, Bool.not_eq_true'] at hc
    exact hc.1.1
  simp only [word, hquote, if_neg Bool.false_ne_true, numberLength?_of_startsPlain hc]
  split
  · rfl
  split
  · rfl
  split <;> rfl

/-- A bracket, comma or bar. -/
def mark (m : String) : Word := ⟨.punctuation, m⟩

theorem Worded.mark {m : String} (hm : m ∈ ["[", "]", ",", "|"]) (h : Worded rest ws) :
    Worded (m.toList ++ rest) (TypeExpr.mark m :: ws) := by
  simp only [List.mem_cons, List.not_mem_nil, or_false] at hm
  rcases hm with rfl | rfl | rfl | rfl
  all_goals
    refine .cons (by decide) ?_ (Nat.le_refl _) h
    rw [word_of_startsPlain (by decide +kernel)]
    rfl

/-- What can follow a word: nothing, a bracket or comma, or a bar after a blank. -/
inductive IsBoundary : List Char → Prop
  | nil : IsBoundary []
  | mark {c : Char} {rest : List Char} (hc : c ∈ ['[', ']', ',']) : IsBoundary (c :: rest)
  | bar {rest : List Char} : IsBoundary (' ' :: '|' :: rest)

/-- Nothing goes on with a name or number at a boundary. -/
theorem IsBoundary.stops (h : IsBoundary rest) :
    ∀ c ∈ rest.head?, isNamePart c = false ∧ isDecimalDigit c = false ∧ c ≠ '.' := by
  have hall : ("[], ".toList.all fun c => !isNamePart c && !isDecimalDigit c && c != '.') = true := by decide +kernel
  have hc : ∀ c ∈ rest.head?, c ∈ "[], ".toList := by
    cases h with
    | nil => nofun
    | mark hc =>
      rintro c ⟨⟩
      exact List.mem_append_left [' '] hc
    | bar =>
      rintro c ⟨⟩
      decide
  intro c hmem
  simpa [and_assoc] using List.all_eq_true.1 hall c (hc c hmem)

theorem IsBoundary.moreParts (h : IsBoundary rest) (n : Nat) : moreParts n rest = ([], rest) := by
  cases n with
  | zero => rfl
  | succ n =>
    cases h with
    | nil => rfl
    | mark hc =>
      simp only [List.mem_cons, List.not_mem_nil, or_false] at hc
      rcases hc with rfl | rfl | rfl <;> rfl
    | bar => rfl

/-- A word that is cut off a text, up to the next boundary. -/
structure Word.IsCut (w : Word) : Prop where
  start : ∃ c cs, w.text.toList = c :: cs ∧ isBlank c = false
  word : ∀ rest, IsBoundary rest → TypeExpr.word (w.text.toList ++ rest) = (w, rest)

theorem Word.IsCut.worded (hw : w.IsCut) (hrest : IsBoundary rest) (h : Worded rest ws) :
    Worded (w.text.toList ++ rest) (w :: ws) := by
  obtain ⟨c, cs, hcs, hc⟩ := hw.start
  have hword := hw.word rest hrest
  rw [hcs, List.cons_append] at hword ⊢
  exact .cons hc hword (by simp) h

theorem isCut_ellipsis : Word.IsCut ⟨.ellipsis, ellipsisName⟩ where
  start := ⟨'.', ['.', '.'], rfl, by decide⟩
  word := by
    intro rest _
    exact word_of_startsPlain (by decide +kernel) _

/-! ## Names -/

/-- A letter or underscore, and then letters, digits and underscores, all of ASCII. -/
def isSegment (cs : List Char) : Bool := cs.head?.any isNameStart && cs.all isNamePart

/-- Identifiers with dots between them. -/
def isDotted (name : String) : Bool := (splitList '.' name.toList).all isSegment

theorem toNat_lt_of_isNameStart (h : isNameStart c = true) : c.toNat < 0x80 := by
  rcases Bool.or_eq_true_iff.1 h with h | h
  · rcases Bool.or_eq_true_iff.1 h with h | h
    · have hle : c.toNat ≤ 0x5A := (of_decide_eq_true h).2
      omega
    · have hle : c.toNat ≤ 0x7A := of_decide_eq_true (Bool.and_eq_true_iff.1 h).2
      omega
  · rw [eq_of_beq h]
    decide

/-- The start of a name is no blank, and starts nothing else. -/
theorem of_isNameStart (h : isNameStart c = true) :
    isNamePart c = true ∧ isBlank c = false ∧ startsPlain c = true ∧ c ≠ '.' := by
  have hc :=
    eq_true_of_ascii (p := fun c => !isNameStart c || (isNamePart c && !isBlank c && startsPlain c && c != '.'))
    (by decide +kernel) (toNat_lt_of_isNameStart h)
  simpa [h, and_assoc] using hc

theorem exists_of_isSegment (h : isSegment cs = true) : ∃ c ds, cs = c :: ds ∧ isNameStart c = true := by
  cases cs with
  | nil => cases h
  | cons c ds => exact ⟨c, ds, rfl, (Bool.and_eq_true_iff.1 h).1⟩

theorem span_of_isSegment (h : isSegment cs = true) (hrest : ∀ c ∈ rest.head?, isNamePart c = false) :
    (cs ++ rest).takeWhile isNamePart = cs ∧ (cs ++ rest).dropWhile isNamePart = rest :=
  span_append (List.all_eq_true.1 (Bool.and_eq_true_iff.1 h).2) hrest

/-- No part of a name follows the one before a dot or boundary. -/
theorem IsBoundary.head_parts (hrest : IsBoundary rest) (parts : List (List Char)) :
    ∀ c ∈ (parts.flatMap ('.' :: ·) ++ rest).head?, isNamePart c = false := by
  cases parts with
  | nil => exact fun c hc => (hrest.stops c hc).1
  | cons part parts =>
    rintro c ⟨⟩
    decide

theorem moreParts_flatMap {parts : List (List Char)} (h : ∀ p ∈ parts, isSegment p = true) (hrest : IsBoundary rest)
    {n : Nat} (hn : parts.length ≤ n) :
    moreParts n (parts.flatMap ('.' :: ·) ++ rest) = (parts.flatMap ('.' :: ·), rest) := by
  induction parts generalizing n with
  | nil => exact hrest.moreParts n
  | cons part parts ih =>
    cases n with
    | zero => cases hn
    | succ n =>
      have hpart := h part List.mem_cons_self
      have hparts := ih (fun p hp => h p (List.mem_cons_of_mem part hp)) (Nat.le_of_succ_le_succ hn)
      obtain ⟨htake, hdrop⟩ := span_of_isSegment hpart (hrest.head_parts parts)
      obtain ⟨c, ds, rfl, hc⟩ := exists_of_isSegment hpart
      have hdot : isBlank '.' = false := by decide
      rw [List.flatMap_cons, List.append_assoc, List.cons_append]
      simp only [List.cons_append] at htake hdrop
      simp [TypeExpr.moreParts, hdot, (of_isNameStart hc).2.1, hc, htake, hdrop, hparts]

theorem isCut_name {name : String} (h : isDotted name = true) : Word.IsCut ⟨.name, name⟩ := by
  obtain ⟨first, parts, hparts⟩ : ∃ first parts, splitList '.' name.toList = first :: parts := by
    rw [splitList_eq_splitOn]
    exact List.exists_cons_of_ne_nil (List.splitOn_ne_nil _ _)
  have hname : name.toList = first ++ parts.flatMap ('.' :: ·) := by
    rw [← intercalate_cons, ← hparts, splitList_eq_splitOn, List.intercalate_splitOn]
  rw [isDotted, hparts, List.all_cons, Bool.and_eq_true, List.all_eq_true] at h
  obtain ⟨c, ds, hfirst, hc⟩ := exists_of_isSegment h.1
  refine ⟨⟨c, ds ++ parts.flatMap ('.' :: ·), by simp [hname, hfirst], (of_isNameStart hc).2.1⟩, ?_⟩
  intro rest hrest
  have hcount := length_le_flatMap '.' parts
  have hdots : ((c :: (ds ++ (parts.flatMap ('.' :: ·) ++ rest))).take 3 == ['.', '.', '.']) = false := by
    simp [(of_isNameStart hc).2.2.2]
  obtain ⟨htake, hdrop⟩ := span_of_isSegment h.1 (hrest.head_parts parts)
  have hmore := moreParts_flatMap h.2 hrest (n := (name.toList ++ rest).length) (by
    simp only [hname, List.length_append]
    omega)
  rw [hname, List.append_assoc, hfirst, List.cons_append] at hmore
  rw [hfirst, List.cons_append] at htake hdrop
  simp only [hname, hfirst, List.append_assoc, List.cons_append]
  rw [word_of_startsPlain (of_isNameStart hc).2.2.1, hdots, if_neg Bool.false_ne_true, if_pos hc, htake, hdrop, hmore,
    ← hfirst, ← hname, String.ofList_toList]

/-! ## Numbers and quoted texts -/

theorem isDecimalDigit_of_isDigit (h : c.isDigit = true) : isDecimalDigit c = true := by
  simp [isDecimalDigit, digitValue?_of_isDigit h]

theorem digitsLength?_of_isDigit (hne : cs ≠ []) (h : ∀ c ∈ cs, c.isDigit = true) (hrest : IsBoundary rest) :
    digitsLength? (cs ++ rest) = some cs.length := by
  have htake : (cs ++ rest).takeWhile isDecimalDigit = cs :=
    (span_append (fun c hc => isDecimalDigit_of_isDigit (h c hc)) fun c hc => (hrest.stops c hc).2.1).1
  have hlength : (cs.length == 0) = false := by simpa using hne
  simp only [digitsLength?, htake, hlength, if_neg Bool.false_ne_true, List.drop_left]
  split
  · exact absurd rfl (hrest.stops '.' rfl).2.2
  · rfl

theorem isCut_number {text : String} (htext : text.toList = c :: cs) (hblank : isBlank c = false)
    (hquote : (c == '\'' || c == '"') = false)
    (h : ∀ rest, IsBoundary rest → numberLength? (c :: cs ++ rest) = some (c :: cs).length) :
    Word.IsCut ⟨.number, text⟩ := by
  refine ⟨⟨c, cs, htext, hblank⟩, fun rest hrest => ?_⟩
  have hnumber := h rest hrest
  have hword : word (c :: (cs ++ rest)) =
      (⟨.number, String.ofList ((c :: cs ++ rest).take (c :: cs).length)⟩, (c :: cs ++ rest).drop
        (c :: cs).length) := by
    simp only [word, hquote, if_neg Bool.false_ne_true, ← List.cons_append, hnumber]
  rw [List.take_left, List.drop_left, ← htext, String.ofList_toList] at hword
  simpa [htext] using hword

theorem isCut_toString (n : Int) : Word.IsCut ⟨.number, toString n⟩ := by
  have hdigits : ∀ c ∈ Nat.toDigits 10 n.natAbs, c.isDigit = true :=
    fun c hc => Nat.isDigit_of_mem_toDigits (by decide) (by decide) hc
  have hlist := toList_toString n
  obtain ⟨d, ds, hd⟩ := List.exists_cons_of_ne_nil (Nat.toDigits_ne_nil (b := 10) (n := n.natAbs))
  rw [hd] at hlist hdigits
  have hlength : ∀ rest, IsBoundary rest → digitsLength? (d :: ds ++ rest) = some (d :: ds).length := fun rest hrest =>
    digitsLength?_of_isDigit (List.cons_ne_nil d ds) hdigits hrest
  by_cases hn : n < 0
  · rw [decide_eq_true hn] at hlist
    refine isCut_number hlist (by decide) (by decide) fun rest hrest => ?_
    exact congrArg (Option.map (· + 1)) (hlength rest hrest)
  · rw [decide_eq_false hn] at hlist
    have hstart := Text.of_isDigit (p := fun c => !isBlank c && !(c == '\'' || c == '"') && c != '-') (by decide)
      (hdigits d List.mem_cons_self)
    simp only [Bool.and_eq_true, Bool.not_eq_true', bne_iff_ne] at hstart
    refine isCut_number hlist hstart.1.1 hstart.1.2 fun rest hrest => ?_
    rw [← hlength rest hrest, List.cons_append]
    unfold numberLength?
    split
    · rename_i heq
      exact absurd (List.cons.inj heq).1 hstart.2
    · rfl

section

variable {q : Char}

theorem quotedLength?_cons (hq : c ≠ q) (hb : c ≠ '\\') (cs : List Char) :
    quotedLength? q (c :: cs) = (quotedLength? q cs).map (· + 1) := by
  simp [quotedLength?, hq, hb]

theorem quotedLength?_append (h : ∀ c ∈ cs, c ≠ q ∧ c ≠ '\\') (rest : List Char) :
    quotedLength? q (cs ++ rest) = (quotedLength? q rest).map (· + cs.length) := by
  induction cs with
  | nil => simp
  | cons c cs ih =>
    obtain ⟨hq, hb⟩ := h c List.mem_cons_self
    rw [List.cons_append, quotedLength?_cons hq hb, ih fun d hd => h d (List.mem_cons_of_mem c hd), Option.map_map]
    rfl

/-- An escaped character does not end the quoted text. -/
theorem quotedLength?_escapeChar (hq : Source.IsQuote q) (c : Char) (rest : List Char) :
    quotedLength? q (escapeChar q c ++ rest) = (quotedLength? q rest).map (· + (escapeChar q c).length) := by
  have hescaped := Source.escaped_escapeChar hq c
  generalize escapeChar q c = written at hescaped
  cases hescaped with
  | plain hne hb _ => exact quotedLength?_append (by simp [hne, hb]) rest
  | @sequence d ds hd hds _ =>
    have hline : (d == '\n') = false := by
      have hall : ("\\nrtxuU".toList.all fun d => !(d == '\n')) = true := by decide
      rcases hd with rfl | hd
      · rcases hq with rfl | rfl <;> decide
      · simpa using List.all_eq_true.1 hall d hd
    have hdigits : ∀ x ∈ ds, x ≠ q ∧ x ≠ '\\' := by
      intro x hx
      obtain ⟨k, -, rfl⟩ := hds x hx
      refine ⟨?_, Nat.digitChar_ne _ (by decide)⟩
      rcases hq with rfl | rfl <;> exact Nat.digitChar_ne _ (by decide)
    have hrest := quotedLength?_append hdigits rest
    simp [quotedLength?, hline, hrest]

theorem quotedLength?_flatMap (hq : Source.IsQuote q) (cs rest : List Char) :
    quotedLength? q (cs.flatMap (escapeChar q) ++ q :: rest) = some (cs.flatMap (escapeChar q) ++ [q]).length := by
  induction cs with
  | nil => rcases hq with rfl | rfl <;> rfl
  | cons c cs ih =>
    rw [List.flatMap_cons, List.append_assoc, quotedLength?_escapeChar hq, ih]
    simp
    omega

end

theorem isCut_quoted (s : String) : Word.IsCut ⟨.string, quoted s⟩ := by
  have hq := Source.isQuote_quoteFor s.toList
  have htext : (quoted s).toList =
      quoteFor s.toList :: s.toList.flatMap (escapeChar (quoteFor s.toList)) ++ [quoteFor s.toList] :=
        String.toList_ofList
  generalize quoteFor s.toList = q at hq htext
  refine ⟨⟨q, _, htext, by rcases hq with rfl | rfl <;> decide⟩, fun rest _ => ?_⟩
  have hquote : (q == '\'' || q == '"') = true := by rcases hq with rfl | rfl <;> rfl
  have hsplit : (quoted s).toList ++ rest = q :: (s.toList.flatMap (escapeChar q) ++ q :: rest) := by simp [htext]
  have hlength : (s.toList.flatMap (escapeChar q) ++ [q]).length + 1 = (quoted s).toList.length := by simp [htext]
  change word ((quoted s).toList ++ rest) = _
  rw [hsplit]
  simp only [word, hquote, if_true, quotedLength?_flatMap hq]
  rw [← hsplit, hlength, List.take_left, List.drop_left, String.ofList_toList]

/-! ## Texts side by side -/

/-- Characters with some words, whatever comes after the boundary that follows them. -/
def Lexes (cs : List Char) (ws : List Word) : Prop :=
  ∀ rest more, IsBoundary rest → Worded rest more → Worded (cs ++ rest) (ws ++ more)

theorem Word.IsCut.lexes (hw : w.IsCut) : Lexes w.text.toList [w] := fun _ _ hrest h => hw.worded hrest h

theorem Lexes.words_eq {text : String} (h : Lexes text.toList ws) : words text = ws := by
  have hworded := h [] [] .nil worded_nil
  rw [List.append_nil, List.append_nil] at hworded
  exact hworded text.length (Nat.le_of_eq String.length_toList)

/-- A separator with one mark, at which a word ends. -/
def Separates (sep m : String) : Prop :=
  ∀ rest more, Worded rest more → IsBoundary (sep.toList ++ rest) ∧ Worded (sep.toList ++ rest) (mark m :: more)

theorem separates_comma : Separates ", " "," := by
  intro rest more h
  exact ⟨.mark (by decide), .mark (m := ",") (by decide) (.blank (by decide) h)⟩

theorem separates_bar : Separates " | " "|" := by
  intro rest more h
  exact ⟨.bar, .blank (by decide) (.mark (m := "|") (by decide) (.blank (by decide) h))⟩

theorem Lexes.join {α : Type} {sep m : String} (hsep : Separates sep m) {xs : List α} {text : α → String}
    {wordsOf : α → List Word} (h : ∀ x ∈ xs, Lexes (text x).toList (wordsOf x)) :
    Lexes (Text.join sep (xs.map text)).toList ([mark m].intercalate (xs.map wordsOf)) := by
  rw [Text.join, String.toList_intercalate, List.map_map]
  induction xs with
  | nil => exact fun _ _ _ h => h
  | cons x xs ih =>
    have hx := h x List.mem_cons_self
    have hxs := ih fun y hy => h y (List.mem_cons_of_mem x hy)
    cases xs with
    | nil => simpa using hx
    | cons y xs =>
      intro rest more hrest hmore
      obtain ⟨hbound, hworded⟩ := hsep _ _ (hxs rest more hrest hmore)
      simpa [List.intercalate_cons_cons] using hx _ _ hbound hworded

theorem Lexes.bracket {name : String} (hname : isDotted name = true) (h : Lexes cs ws) :
    Lexes (name.toList ++ '[' :: (cs ++ [']'])) (⟨.name, name⟩ :: mark "[" :: (ws ++ [mark "]"])) := by
  intro rest more _ hmore
  have hclose : Worded (']' :: rest) (mark "]" :: more) := .mark (m := "]") (by decide) hmore
  have hinside := h _ _ (.mark (by decide)) hclose
  have hopen : Worded ('[' :: (cs ++ ']' :: rest)) (mark "[" :: (ws ++ mark "]" :: more)) :=
    .mark (m := "[") (by decide) hinside
  simpa using (isCut_name hname).worded (.mark (by decide)) hopen

end

end ApiSchema.TypeExpr
