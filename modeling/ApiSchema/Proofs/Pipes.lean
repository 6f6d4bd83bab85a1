import ApiSchema.Pattern.Read
import ApiSchema.Proofs.LowerCase
import ApiSchema.Rule.Token

/-!
# Rules between pipes

The rules of a field are one text with pipes between them, or a list. A text is cut at its pipes, and a rule with a
regular expression takes back what follows as long as its expression has an open bracket. So an expression with an open
bracket before each of its pipes stays whole, and the text after it is read as if it stood alone
(`parse_append_of_balanced`). And a list of rules without pipes and the text that joins them say the same if and only if
no rule but the last is left open (`parse_join_iff`).

Brackets are counted also inside a set of characters, where they mean themselves. That leaves a rule open although its
expression is complete, and the rule after it is lost (`parse_join_swallowed`).
-/
namespace ApiSchema

variable {sep : Char} {s expression : String}

/-! ## Cutting and stripping -/

namespace Text

section

variable {p : Char → Bool} {c x : Char} {cs a b : List Char}

theorem splitList_eq_splitOn (sep : Char) (cs : List Char) : splitList sep cs = cs.splitOn sep := by
  unfold List.splitOn
  induction cs with
  | nil => rfl
  | cons c cs ih =>
    rw [splitList, ih, List.splitOnP_cons_eq_if_modifyHead]
    cases hcs : cs.splitOnP (· == sep) with
    | nil => exact absurd hcs (List.splitOnP_ne_nil _ _)
    | cons piece pieces => by_cases hc : c = sep <;> simp [hc]

/-- Texts without the separator are the pieces of the text that joins them. -/
theorem split_join {sep : Char} {s : String} {xs : List String} (hs : s.toList = [sep])
    (hxs : ∀ x ∈ xs, sep ∉ x.toList) (hne : xs ≠ []) : split sep (join s xs) = xs := by
  have hpieces : (xs.map String.toList).map String.ofList = xs := by simp [Function.comp_def]
  rw [split, join, splitList_eq_splitOn, String.toList_intercalate, hs, List.splitOn_intercalate, hpieces]
  · simpa using hxs
  · simpa using hne

theorem join_split (hs : s.toList = [sep]) (t : String) : join s (split sep t) = t := by
  rw [← String.toList_inj, join, String.toList_intercalate, hs, split, splitList_eq_splitOn, List.map_map]
  simp [Function.comp_def, List.intercalate_splitOn]

/-- A separator divides the pieces of the text before it from those of the text after it. -/
theorem split_append (hs : s.toList = [sep]) (t u : String) :
    split sep (t ++ s ++ u) = split sep t ++ split sep u := by
  have happend : (t ++ s ++ u).toList = t.toList ++ sep :: u.toList := by simp [hs]
  rw [split, splitList_eq_splitOn, happend, List.splitOn_append_cons_self, List.map_append, split, split,
    splitList_eq_splitOn, splitList_eq_splitOn]

/-- A separator that comes after a start without it comes in what follows the start. -/
theorem exists_of_append_eq {start t u v : String} (hs : s.toList = [sep]) (hstart : sep ∉ start.toList)
    (h : start ++ t = u ++ s ++ v) : ∃ w, u = start ++ w ∧ t = w ++ s ++ v := by
  have hlist : start.toList ++ t.toList = u.toList ++ sep :: v.toList := by
    rw [← String.toList_append, h]
    simp [hs]
  rcases List.append_eq_append_iff.1 hlist with ⟨w, hu, ht⟩ | ⟨w, hu, ht⟩
  · refine ⟨String.ofList w, ?_, ?_⟩ <;> simp [← String.toList_inj, hu, ht, hs]
  · cases w with
    | nil =>
      refine ⟨"", ?_, ?_⟩
      · simpa [← String.toList_inj] using hu.symm
      · simpa [← String.toList_inj, hs] using ht.symm
    | cons d w =>
      rw [List.cons_append, List.cons.injEq] at ht
      exact absurd (by simp [hu, ht.1]) hstart

theorem mem_splitList (hc : c ≠ sep) : (∃ piece ∈ splitList sep cs, c ∈ piece) ↔ c ∈ cs := by
  induction cs with
  | nil => simp [splitList]
  | cons d cs ih =>
    rw [splitList, List.mem_cons, ← ih]
    cases hcs : splitList sep cs with
    | nil => simp
    | cons piece pieces => by_cases hd : d = sep <;> simp [hd, hc, or_assoc]

theorem cutList_append_cons (h : sep ∉ a) : cutList sep (a ++ sep :: b) = (a, some b) := by
  induction a with
  | nil => simp [cutList]
  | cons c a ih =>
    obtain ⟨hc, ha⟩ := not_or.1 (List.mem_cons.not.1 h)
    simp [cutList, ih ha, Ne.symm hc]

theorem cutList_of_not_mem (h : sep ∉ cs) : cutList sep cs = (cs, none) := by
  induction cs with
  | nil => rfl
  | cons c cs ih =>
    obtain ⟨hc, hcs⟩ := not_or.1 (List.mem_cons.not.1 h)
    simp [cutList, ih hcs, Ne.symm hc]

theorem cut_snd_of_append (hs : s.toList = a ++ sep :: b) (ha : sep ∉ a) :
    (cut sep s).2 = some (String.ofList b) := by
  simp [cut, hs, cutList_append_cons ha]

theorem exists_of_cut {rest : String} (h : (cut sep s).2 = some rest) :
    ∃ before, s.toList = before ++ sep :: rest.toList ∧ sep ∉ before := by
  by_cases hsep : sep ∈ s.toList
  · obtain ⟨before, after, hs, hbefore⟩ := List.eq_append_cons_of_mem hsep
    rw [cut_snd_of_append hs hbefore] at h
    cases h
    exact ⟨before, by simpa using hs, hbefore⟩
  · simp [cut, cutList_of_not_mem hsep] at h

/-- More text at the end goes to the part after the separator. -/
theorem cut_append {rest : String} (h : (cut sep s).2 = some rest) (t : String) :
    (cut sep (s ++ t)).2 = some (rest ++ t) := by
  obtain ⟨before, hs, hbefore⟩ := exists_of_cut h
  have hst : (s ++ t).toList = before ++ sep :: (rest ++ t).toList := by simp [hs]
  rw [cut_snd_of_append hst hbefore, String.ofList_toList]

theorem mem_dropWhile (hc : p c = false) : c ∈ cs.dropWhile p ↔ c ∈ cs := by
  induction cs with
  | nil => rfl
  | cons d cs ih =>
    by_cases hd : p d = true
    · have hne : c ≠ d := by
        rintro rfl
        simp [hc] at hd
      simp [hd, ih, hne]
    · simp [hd]

theorem mem_dropRightWhile (hc : p c = false) : c ∈ dropRightWhile p cs ↔ c ∈ cs := by
  rw [dropRightWhile, List.mem_reverse, mem_dropWhile hc, List.mem_reverse]

theorem mem_strip (hc : isBlank c = false) (s : String) : c ∈ (strip s).toList ↔ c ∈ s.toList := by
  rw [strip, stripOf, String.toList_ofList, mem_dropRightWhile hc, mem_dropWhile hc]

theorem dropWhile_append_cons (hx : p x = false) : (a ++ x :: b).dropWhile p = a.dropWhile p ++ x :: b := by
  rw [List.dropWhile_append]
  split
  · simp_all
  · rfl

theorem dropRightWhile_append_cons (hx : p x = false) :
    dropRightWhile p (a ++ x :: b) = a ++ x :: dropRightWhile p b := by
  rw [dropRightWhile, List.reverse_append, List.reverse_cons, List.append_assoc, List.singleton_append,
    dropWhile_append_cons hx]
  simp [dropRightWhile]

/-- Blanks at the ends of a text are those at the start of its first part and at the end of its second. -/
theorem toList_strip_of_append (hx : isBlank x = false) (hs : s.toList = a ++ x :: b) :
    (strip s).toList = a.dropWhile isBlank ++ x :: dropRightWhile isBlank b := by
  simp [strip, stripOf, hs, dropWhile_append_cons hx, dropRightWhile_append_cons hx]

/-- Blanks at the ends of a text are at the ends of its two parts. -/
theorem cut_strip (hsep : isBlank sep = false) (s : String) :
    (cut sep (strip s)).2 = (cut sep s).2.map (stripRightOf isBlank) := by
  by_cases hmem : sep ∈ s.toList
  · obtain ⟨before, after, hs, hbefore⟩ := List.eq_append_cons_of_mem hmem
    have hstrip := toList_strip_of_append hsep hs
    rw [cut_snd_of_append hs hbefore, cut_snd_of_append hstrip (by rwa [mem_dropWhile hsep])]
    simp [stripRightOf]
  · have hstrip : sep ∉ (strip s).toList := by rwa [mem_strip hsep]
    simp [cut, cutList_of_not_mem hmem, cutList_of_not_mem hstrip]

theorem isBlankText_eq_false (hc : isBlank c = false) (h : c ∈ s.toList) : isBlankText s = false := by
  rw [isBlankText, List.all_eq_false]
  exact ⟨c, h, by simp [hc]⟩

end

end Text

namespace Rule

open Text

/-! ## Segments -/

variable {s o : String} {pre segments : List String}

theorem isOpen_iff :
    isOpen s = true ↔ startsPattern s = true ∧ ∃ rest, (cut ':' s).2 = some rest ∧ balanced rest = false := by
  rw [isOpen, Bool.and_eq_true, Bool.not_eq_true']
  refine and_congr_right fun _ => ?_
  cases (cut ':' s).2 with
  | none => simp [balanced, openBrackets]
  | some rest => simp

/-- Segments that are not open stay as they are. -/
theorem mergeFrom_append (h : ∀ s ∈ pre, isOpen s = false) (segments : List String) :
    mergeFrom none (pre ++ segments) = pre ++ mergeFrom none segments := by
  induction pre with
  | nil => rfl
  | cons s pre ih =>
    rw [List.cons_append, mergeFrom, h s List.mem_cons_self, ih fun t ht => h t (List.mem_cons_of_mem _ ht)]
    rfl

theorem mergeFrom_singleton (s : String) : mergeFrom none [s] = [s] := by
  simp [mergeFrom]

/-- An open segment takes the next one back, with the pipe between them. -/
theorem exists_mergeFrom_open (o s : String) (segments : List String) :
    ∃ more rest, mergeFrom (some o) (s :: segments) = (o ++ "|" ++ more) :: rest := by
  induction segments generalizing o s with
  | nil => exact ⟨s, [], by simp [mergeFrom]⟩
  | cons t segments ih =>
    rw [mergeFrom]
    split
    · obtain ⟨more, rest, h⟩ := ih (o ++ "|" ++ s) t
      refine ⟨s ++ "|" ++ more, rest, ?_⟩
      rw [h]
      simp only [String.append_assoc]
    · exact ⟨s, _, rfl⟩

/-- Segments become one if what is joined of them stays open up to the last one. -/
theorem mergeFrom_join {more : List String} (hopen : ∀ u v, join "|" (s :: more) = u ++ "|" ++ v → isOpen u = true)
    (hclosed : isOpen (join "|" (s :: more)) = false) (segments : List String) :
    mergeFrom none (s :: more ++ segments) = join "|" (s :: more) :: mergeFrom none segments := by
  -- The joined text is the same at each step; only its first segment grows.
  induction more generalizing s with
  | nil =>
    have hsingle : join "|" [s] = s := by simp [join]
    rw [hsingle] at hclosed ⊢
    simp [mergeFrom, hclosed]
  | cons t more ih =>
    have hjoin : join "|" (s :: t :: more) = join "|" ((s ++ "|" ++ t) :: more) := rfl
    have hs : isOpen s = true := hopen s (join "|" (t :: more)) String.intercalate_cons_cons
    rw [hjoin] at hopen hclosed ⊢
    rw [List.cons_append, List.cons_append, mergeFrom, if_pos hs, mergeFrom, ← mergeFrom]
    exact ih hopen hclosed

/-- A text that is open before each of its pipes, and closed at its end, is one segment. -/
theorem splitPipes_append (hopen : ∀ u v, s = u ++ "|" ++ v → isOpen u = true) (hclosed : isOpen s = false)
    (b : String) : splitPipes (s ++ "|" ++ b) = s :: splitPipes b := by
  have hjoin : join "|" (split '|' s) = s := join_split rfl s
  rw [splitPipes, split_append rfl, splitPipes]
  cases hs : split '|' s with
  | nil => simp [split, splitList_eq_splitOn] at hs
  | cons first more =>
    rw [hs] at hjoin
    rw [← hjoin] at hopen hclosed
    rw [mergeFrom_join hopen hclosed, hjoin]

/-- The names of the rules with a regular expression. -/
def patternNames : List String := ["regex", "not_regex"]

/-- A rule with a regular expression is open if its expression is. -/
theorem isOpen_append {name : String} (hname : name ∈ patternNames) (expression : String) :
    isOpen (name ++ ":" ++ expression) = !balanced expression := by
  have hplain : ∀ name ∈ patternNames, name.toList.dropWhile isBlank = name.toList ∧ ':' ∉ name.toList ∧
      (name.toList ++ [':']).all isLowered = true := by decide +kernel
  obtain ⟨hblank, hcolon, hlowered⟩ := hplain name hname
  rw [List.all_eq_true] at hlowered
  have htext : (name ++ ":" ++ expression).toList = name.toList ++ ':' :: expression.toList := by simp
  have hlower : (lower (strip (name ++ ":" ++ expression))).toList = name.toList ++ [':'] ++
      lowerFrom (name.toList ++ [':']).reverse (dropRightWhile isBlank expression.toList) := by
    rw [lower, toList_strip_of_append (by decide) htext, hblank, List.append_cons, lowerFrom_append hlowered]
    simp
  have hstarts : startsPattern (name ++ ":" ++ expression) = true := by
    simp only [patternNames, List.mem_cons, List.not_mem_nil, or_false] at hname
    simp only [startsPattern, startsWith, hlower]
    rcases hname with rfl | rfl <;> simp
  rw [isOpen, hstarts, cut_snd_of_append htext hcolon]
  simp

/-! ## Rules -/

/-- The parameters of a rule hold what stands after its colon, but for blanks and commas. -/
theorem exists_mem_params {c : Char} (hblank : isBlank c = false) (hcomma : c ≠ ',') (s : String) :
    (∃ param ∈ (Token.parse s).params, c ∈ param.toList) ↔ ∃ rest, (cut ':' s).2 = some rest ∧ c ∈ rest.toList := by
  have hcut := cut_strip (by decide : isBlank ':' = false) s
  unfold Token.parse
  split
  · rename_i name hparse
    rw [hparse] at hcut
    simp [Option.map_eq_none_iff.1 hcut.symm]
  · rename_i name rest hparse
    rw [hparse] at hcut
    obtain ⟨tail, htail, rfl⟩ := Option.map_eq_some_iff.1 hcut.symm
    have hrest : c ∈ (stripRightOf isBlank tail).toList ↔ c ∈ tail.toList := by
      rw [stripRightOf, String.toList_ofList, mem_dropRightWhile hblank]
    simp only [htail, Option.some.injEq, exists_eq_left', ← hrest]
    split
    · simp
    · simp [split, mem_strip hblank, mem_splitList hcomma]

theorem parse_elements (xs : List String) :
    parse (.elements (xs.map .text)) = (xs.filter (!isBlankText ·)).map Token.parse := by
  rw [parse, List.filterMap_map]
  induction xs with
  | nil => rfl
  | cons x xs ih => cases hx : isBlankText x <;> simp_all [Element.token?]

theorem parseLine_append {name : String} (hname : name ∈ patternNames) (hclosed : balanced expression = true)
    (hopen : ∀ u v, expression = u ++ "|" ++ v → balanced u = false) (b : String) :
    parseLine (name ++ ":" ++ expression ++ "|" ++ b) = Token.parse (name ++ ":" ++ expression) :: parseLine b := by
  have hpipe : ∀ name ∈ patternNames, '|' ∉ (name ++ ":").toList := by decide
  have hopen' : ∀ u v, name ++ ":" ++ expression = u ++ "|" ++ v → isOpen u = true := by
    intro u v huv
    obtain ⟨w, rfl, hw⟩ := exists_of_append_eq rfl (hpipe name hname) huv
    rw [isOpen_append hname, hopen w v hw, Bool.not_false]
  have hclosed' : isOpen (name ++ ":" ++ expression) = false := by rw [isOpen_append hname, hclosed, Bool.not_true]
  have hblank : isBlankText (name ++ ":" ++ expression) = false :=
    isBlankText_eq_false (by decide : isBlank ':' = false) (by simp)
  rw [parseLine, splitPipes_append hopen' hclosed', List.filter_cons, hblank]
  rfl

/-- A rule that took more back is another rule. -/
theorem parse_append_ne (ho : isOpen o = true) (hpipe : '|' ∉ o.toList) (more : String) :
    Token.parse (o ++ "|" ++ more) ≠ Token.parse o := by
  obtain ⟨-, rest, hrest, -⟩ := isOpen_iff.1 ho
  have hlonger : (cut ':' (o ++ "|" ++ more)).2 = some (rest ++ ("|" ++ more)) := by
    rw [String.append_assoc]
    exact cut_append hrest _
  have hparams := exists_mem_params (by decide : isBlank '|' = false) (by decide)
  have hmem : ∃ param ∈ (Token.parse (o ++ "|" ++ more)).params, '|' ∈ param.toList :=
    (hparams _).2 ⟨_, hlonger, by simp⟩
  intro heq
  rw [heq, hparams] at hmem
  obtain ⟨rest', hrest', hmem⟩ := hmem
  obtain ⟨before, hbefore, -⟩ := exists_of_cut hrest'
  exact hpipe (by simp [hbefore, hmem])

/-- An expression with an open bracket before each of its pipes, and with none at its end, stays whole. The rules after
it are those of the rest alone. -/
theorem parse_append_of_balanced (hclosed : balanced expression = true)
    (hopen : ∀ u v, expression = u ++ "|" ++ v → balanced u = false) (b : String) :
    parse (.line ("regex:" ++ expression ++ "|" ++ b)) =
        [Token.parse ("regex:" ++ expression)] ++ parse (.line b) ∧
      parse (.line ("not_regex:" ++ expression ++ "|" ++ b)) =
        [Token.parse ("not_regex:" ++ expression)] ++ parse (.line b) := by
  exact ⟨parseLine_append (by decide : "regex" ∈ patternNames) hclosed hopen b,
    parseLine_append (by decide : "not_regex" ∈ patternNames) hclosed hopen b⟩

/-- The places of the pipes of a text can be gone through. -/
theorem open_of_pipes (h : ∀ n < expression.toList.length, expression.toList[n]? = some '|' →
    balanced (String.ofList (expression.toList.take n)) = false) (u v : String) (huv : expression = u ++ "|" ++ v) :
    balanced u = false := by
  have hlist : expression.toList = u.toList ++ '|' :: v.toList := by simp [huv]
  simpa [hlist] using h u.toList.length (by simp [hlist]) (by simp [hlist])

/-- An expression with pipes in groups, beside a bracket after a backslash and inside a set. -/
def pipedExpression : String := "^(a|\\[b|(c|[d|e])\x7b2\x7d)$"

theorem parse_append_pipedExpression :
    balanced pipedExpression = true ∧ (∀ u v, pipedExpression = u ++ "|" ++ v → balanced u = false) ∧
      parse (.line ("regex:" ++ pipedExpression ++ "|" ++ " Max:5||not_regex:(x|y)")) =
        [{ name := "regex", params := [pipedExpression] }, { name := "max", params := ["5"] },
          { name := "not_regex", params := ["(x|y)"] }] := by
  have hclosed : balanced pipedExpression = true := by decide +kernel
  have hopen : ∀ u v, pipedExpression = u ++ "|" ++ v → balanced u = false := open_of_pipes (by decide +kernel)
  refine ⟨hclosed, hopen, ?_⟩
  rw [(parse_append_of_balanced hclosed hopen _).1]
  decide +kernel

/-- After rules that are not open, an open rule is not read as it stands in a list. -/
theorem parse_mergeFrom_ne (hpre : ∀ s ∈ pre, isOpen s = false) (ho : isOpen o = true) (hpipe : '|' ∉ o.toList) :
    ((mergeFrom none (pre ++ o :: s :: segments)).filter (!isBlankText ·)).map Token.parse ≠
      ((pre ++ o :: s :: segments).filter (!isBlankText ·)).map Token.parse := by
  obtain ⟨more, rest, hmerge⟩ := exists_mergeFrom_open o s segments
  obtain ⟨-, param, hparam, -⟩ := isOpen_iff.1 ho
  obtain ⟨before, hbefore, -⟩ := exists_of_cut hparam
  have hblank : isBlankText o = false := isBlankText_eq_false (by decide : isBlank ':' = false) (by simp [hbefore])
  have hblank' : isBlankText (o ++ "|" ++ more) = false :=
    isBlankText_eq_false (by decide : isBlank '|' = false) (by simp)
  intro heq
  rw [mergeFrom_append hpre, mergeFrom, if_pos ho, hmerge] at heq
  simp only [List.filter_append, List.map_append, List.filter_cons, hblank, hblank', Bool.not_false, if_true,
    List.map_cons, List.append_cancel_left_eq, List.cons.injEq] at heq
  exact parse_append_ne ho hpipe more heq.1

/-- Rules that are joined by pipes are those of the list if and only if no rule but the last is open. Otherwise the rule
takes back the one after it. -/
theorem parse_join_iff {xs : List String} (hxs : ∀ x ∈ xs, '|' ∉ x.toList) :
    parse (.line (join "|" xs)) = parse (.elements (xs.map .text)) ↔ ∀ x ∈ xs.dropLast, isOpen x = false := by
  rcases List.eq_nil_or_concat' xs with rfl | ⟨init, last, rfl⟩
  · exact iff_of_true (by decide) (by simp)
  rw [parse_elements, parse, parseLine, splitPipes, split_join rfl hxs (by simp), List.dropLast_concat]
  refine ⟨fun heq => ?_, fun h => by rw [mergeFrom_append h, mergeFrom_singleton]⟩
  cases hfind : init.find? isOpen with
  | none => simpa using hfind
  | some o =>
    obtain ⟨ho, pre, post, rfl, hpre⟩ := List.find?_eq_some_iff_append.1 hfind
    have hpipe : '|' ∉ o.toList := hxs o (by simp)
    rw [List.append_assoc, List.cons_append] at heq
    cases hrest : post ++ [last] with
    | nil => simp at hrest
    | cons next segments =>
      rw [hrest] at heq
      exact absurd heq (parse_mergeFrom_ne (by simpa using hpre) ho hpipe)

/-- Rules with a bracket after a backslash, with closed brackets, and without anything. -/
def closedRules : List String := ["nullable", "Regex:^\\([a-z]\x7b2\x7d$", "  ", "not_regex:(x)", "max:5"]

theorem parse_join_closedRules :
    (∀ x ∈ closedRules, '|' ∉ x.toList) ∧ (∀ x ∈ closedRules.dropLast, isOpen x = false) ∧
      parse (.line (join "|" closedRules)) = parse (.elements (closedRules.map .text)) := by
  have hpipes : ∀ x ∈ closedRules, '|' ∉ x.toList := by decide +kernel
  have hclosed : ∀ x ∈ closedRules.dropLast, isOpen x = false := by decide +kernel
  exact ⟨hpipes, hclosed, (parse_join_iff hpipes).2 hclosed⟩

/-- A regular expression for an opening parenthesis, and a rule after it. -/
def setRules : List String := ["regex:^[(]$", "max:3"]

/-- The parenthesis counts as an open bracket, and the rule after the expression becomes a part of it. -/
theorem parse_join_swallowed :
    (Pattern.read "^[(]$").toOption.isSome = true ∧ (∀ x ∈ setRules, '|' ∉ x.toList) ∧
      parse (.line (join "|" setRules)) = [{ name := "regex", params := ["^[(]$|max:3"] }] ∧
      parse (.elements (setRules.map .text)) =
        [{ name := "regex", params := ["^[(]$"] }, { name := "max", params := ["3"] }] := by
  decide +kernel

end Rule

end ApiSchema
