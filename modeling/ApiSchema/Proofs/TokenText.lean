import ApiSchema.Proofs.Pipes
import Mathlib.Data.List.DropRight

/-!
# The text of a rule

What is read from a text is a normal rule: its name is in lower case, without blanks at its ends and without a colon,
and its parameters are as they come out when the text after the colon is taken whole or cut at its commas
(`isNormal_parse`). The text of a normal rule is read as that rule (`parse_text_of_isNormal`). So a rule that was read
and written is the same when it is read again (`parse_text_parse`).
-/
namespace ApiSchema

/-! ## Blanks at the ends -/

namespace Text

variable {c d : Char} {before cs : List Char} {s : String}

/-- No blank stands at an end. -/
structure IsTrimmed (cs : List Char) : Prop where
  head : ∀ c ∈ cs.head?, isBlank c = false
  last : ∀ c ∈ cs.getLast?, isBlank c = false

theorem isBlank_of_mem_getLast? (h : c ∈ (dropRightWhile isBlank cs).getLast?) : isBlank c = false := by
  have hhead := List.head?_dropWhile_not isBlank cs.reverse
  rw [dropRightWhile, List.getLast?_reverse] at h
  rw [Option.mem_def.1 h] at hhead
  simpa using hhead

theorem dropRightWhile_eq_self (h : ∀ c ∈ cs.getLast?, isBlank c = false) : dropRightWhile isBlank cs = cs :=
  List.rdropWhile_eq_self_iff.2 fun hne => by simp [h _ (List.getLast?_eq_some_getLast hne)]

theorem dropWhile_eq_self (h : ∀ c ∈ cs.head?, isBlank c = false) : cs.dropWhile isBlank = cs := by
  cases cs with
  | nil => rfl
  | cons c rest => exact List.dropWhile_cons_of_neg (by simp [h c rfl])

theorem isTrimmed_strip (s : String) : IsTrimmed (strip s).toList := by
  rw [strip, stripOf, String.toList_ofList]
  refine ⟨fun c hc => ?_, fun c hc => isBlank_of_mem_getLast? hc⟩
  obtain ⟨rest, hrest⟩ : dropRightWhile isBlank (s.toList.dropWhile isBlank) <+: s.toList.dropWhile isBlank :=
    List.rdropWhile_prefix _ _
  have hhead := List.head?_dropWhile_not isBlank s.toList
  rw [← hrest, List.head?_append, Option.mem_def.1 hc] at hhead
  simpa using hhead

theorem strip_eq_self (h : IsTrimmed s.toList) : strip s = s := by
  rw [strip, stripOf, dropWhile_eq_self h.head, dropRightWhile_eq_self h.last, String.ofList_toList]

theorem strip_strip (s : String) : strip (strip s) = strip s := strip_eq_self (isTrimmed_strip s)

/-! ## Lower case -/

theorem isBlank_of_isFormOf (h : IsFormOf c d) (hc : isBlank c = false) : isBlank d = false := by
  obtain ⟨-, rfl | ⟨hd, -⟩⟩ := h
  · exact hc
  · exact hd

theorem exists_isFormOf_getLast? (hd : d ∈ (lowerFrom before cs).getLast?) : ∃ c ∈ cs.getLast?, IsFormOf c d := by
  induction cs generalizing before with
  | nil => cases hd
  | cons c cs ih =>
    rw [lowerFrom_cons] at hd
    by_cases hcs : cs = []
    · subst hcs
      rw [lowerFrom, List.append_nil] at hd
      exact ⟨c, rfl, isFormOf_of_mem_formAt (List.mem_of_getLast? hd)⟩
    · rw [List.getLast?_append_of_ne_nil _ (lowerFrom_ne_nil _ hcs)] at hd
      rw [← List.singleton_append, List.getLast?_append_of_ne_nil _ hcs]
      exact ih hd

/-- A text without blanks at its ends has none in lower case. -/
theorem isTrimmed_lowerFrom (h : IsTrimmed cs) : IsTrimmed (lowerFrom before cs) := by
  constructor
  · intro d hd
    cases cs with
    | nil => cases hd
    | cons c rest =>
      rw [lowerFrom_cons, List.head?_append_of_ne_nil _ (formAt_ne_nil _ _ _)] at hd
      exact isBlank_of_isFormOf (isFormOf_of_mem_formAt (List.mem_of_head? hd)) (h.head c rfl)
  · intro d hd
    obtain ⟨c, hc, hform⟩ := exists_isFormOf_getLast? hd
    exact isBlank_of_isFormOf hform (h.last c hc)

/-! ## Pieces -/

theorem not_mem_of_mem_splitList {sep : Char} {piece : List Char} (h : piece ∈ splitList sep cs) : sep ∉ piece := by
  induction cs generalizing piece with
  | nil =>
    rw [splitList, List.mem_singleton] at h
    simp [h]
  | cons c cs ih =>
    rw [splitList] at h
    cases hcs : splitList sep cs with
    | nil => simp [splitList_eq_splitOn] at hcs
    | cons first pieces =>
      rw [hcs] at h ih
      by_cases hc : c = sep
      · simp only [hc, beq_self_eq_true, if_true, List.mem_cons] at h
        rcases h with rfl | h
        · simp
        · exact ih (List.mem_cons.2 h)
      · simp only [beq_iff_eq, hc, if_false, List.mem_cons] at h
        rcases h with rfl | h
        · exact List.not_mem_cons_of_ne_of_not_mem (Ne.symm hc) (ih List.mem_cons_self)
        · exact ih (List.mem_cons_of_mem _ h)

/-- Pieces without blanks at their ends, joined by something else, have none at their end. -/
theorem stripRightOf_join {sep : Char} {s : String} (hs : s.toList = [sep]) (hsep : isBlank sep = false) :
    (xs : List String) → (∀ x ∈ xs, strip x = x) → stripRightOf isBlank (join s xs) = join s xs
  | [], _ => by simp [join, stripRightOf, dropRightWhile]
  | [x], h => by
    have hx : IsTrimmed x.toList := h x List.mem_cons_self ▸ isTrimmed_strip x
    simp [join, stripRightOf, dropRightWhile_eq_self hx.last]
  | x :: y :: xs, h => by
    have ih := stripRightOf_join hs hsep (y :: xs) (List.forall_mem_cons.1 h).2
    have hcons : join s (x :: y :: xs) = x ++ s ++ join s (y :: xs) := String.intercalate_cons_cons
    rw [stripRightOf, ← String.toList_inj, String.toList_ofList] at ih
    simp [hcons, stripRightOf, ← String.toList_inj, hs, dropRightWhile_append_cons hsep, ih]

end Text

/-! ## Rules -/

namespace Rule.Token

open Text

variable {t : Token} {name rest : String}

/-- A name as it is read from a text. -/
structure IsName (name : String) : Prop where
  lowered : lower name = name
  trimmed : IsTrimmed name.toList
  colon : ':' ∉ name.toList

/-- A rule as it is read from a text. -/
structure IsNormal (t : Token) : Prop where
  name : IsName t.name
  whole : t.name ∈ unsplitRules → ∀ p ps, t.params = p :: ps → ps = [] ∧ stripRightOf isBlank p = p
  pieces : t.name ∉ unsplitRules → ∀ p ∈ t.params, strip p = p ∧ ',' ∉ p.toList

theorem isName_lower (h : ':' ∉ name.toList) : IsName (lower (strip name)) where
  lowered := lower_lower _
  trimmed := by
    rw [lower, String.toList_ofList]
    exact isTrimmed_lowerFrom (isTrimmed_strip name)
  colon := colon_not_mem_lower fun hcolon => h ((mem_strip (by decide) name).1 hcolon)

theorem colon_not_mem_cut (s : String) : ':' ∉ (cut ':' s).1.toList := by
  rw [toList_cut_fst]
  intro h
  simpa using List.mem_takeWhile_imp h

theorem stripRightOf_cut {s : String} (h : (cut ':' (strip s)).2 = some rest) : stripRightOf isBlank rest = rest := by
  obtain ⟨before, hs, -⟩ := exists_of_cut h
  have hlast : ∀ c ∈ rest.toList.getLast?, isBlank c = false := by
    intro c hc
    refine (isTrimmed_strip s).last c ?_
    simp [hs, List.getLast?_cons, Option.mem_def.1 hc]
  rw [stripRightOf, dropRightWhile_eq_self hlast, String.ofList_toList]

theorem isNormal_parse (s : String) : (Token.parse s).IsNormal := by
  have hcolon := colon_not_mem_cut (strip s)
  unfold Token.parse
  split
  · rename_i name hcut
    rw [hcut] at hcolon
    exact ⟨isName_lower hcolon, fun _ => nofun, fun _ => nofun⟩
  · rename_i name rest hcut
    rw [hcut] at hcolon
    have hname := isName_lower hcolon
    dsimp only
    split
    · rename_i hunsplit
      refine ⟨hname, ?_, fun h => absurd (List.contains_iff_mem.1 hunsplit) h⟩
      rintro - p ps ⟨rfl, rfl⟩
      exact ⟨rfl, stripRightOf_cut (congrArg Prod.snd hcut)⟩
    · rename_i hsplit
      refine ⟨hname, fun h => absurd (List.contains_iff_mem.2 h) hsplit, ?_⟩
      intro _ p hp
      obtain ⟨piece, hpiece, rfl⟩ := List.mem_map.1 hp
      obtain ⟨cs, hcs, rfl⟩ := List.mem_map.1 hpiece
      refine ⟨strip_strip _, fun hcomma => not_mem_of_mem_splitList hcs ?_⟩
      rwa [mem_strip (by decide), String.toList_ofList] at hcomma

/-- A name, a colon and a text without blanks at its end are read as they stand. -/
theorem parse_append (hname : IsName name) (hrest : stripRightOf isBlank rest = rest) :
    Token.parse (name ++ ":" ++ rest) =
      ⟨name, if unsplitRules.contains name then [rest] else (split ',' rest).map strip⟩ := by
  have htext : (name ++ ":" ++ rest).toList = name.toList ++ ':' :: rest.toList := by simp
  have hstrip : strip (name ++ ":" ++ rest) = name ++ ":" ++ rest := by
    rw [stripRightOf, ← String.toList_inj, String.toList_ofList] at hrest
    rw [← String.toList_inj, toList_strip_of_append (by decide) htext, dropWhile_eq_self hname.trimmed.head,
      hrest, htext]
  have hcut : cut ':' (name ++ ":" ++ rest) = (name, some rest) := by
    simp [cut, htext, cutList_append_cons hname.colon]
  unfold Token.parse
  rw [hstrip, hcut]
  simp only [strip_eq_self hname.trimmed, hname.lowered]
  split <;> rfl

theorem parse_name (hname : IsName name) : Token.parse name = ⟨name, []⟩ := by
  have hcut : cut ':' name = (name, none) := by simp [cut, cutList_of_not_mem hname.colon]
  unfold Token.parse
  rw [strip_eq_self hname.trimmed, hcut]
  simp only [strip_eq_self hname.trimmed, hname.lowered]

theorem parse_text_of_isNormal (h : t.IsNormal) : Token.parse t.text = t := by
  obtain ⟨name, params⟩ := t
  obtain ⟨hname, hwhole, hpieces⟩ := h
  cases params with
  | nil => exact parse_name hname
  | cons p ps =>
    have htext : text ⟨name, p :: ps⟩ = name ++ ":" ++ join "," (p :: ps) := rfl
    rw [htext]
    by_cases hunsplit : name ∈ unsplitRules
    · obtain ⟨rfl, hp⟩ := hwhole hunsplit p ps rfl
      have hjoin : join "," [p] = p := by simp [join]
      rw [hjoin, parse_append hname hp, if_pos (List.contains_iff_mem.2 hunsplit)]
    · have hpieces := hpieces hunsplit
      have hjoin : stripRightOf isBlank (join "," (p :: ps)) = join "," (p :: ps) :=
        stripRightOf_join rfl (by decide) _ fun q hq => (hpieces q hq).1
      have hsplit : split ',' (join "," (p :: ps)) = p :: ps := split_join rfl (fun q hq => (hpieces q hq).2) (by simp)
      have hstrip : (p :: ps).map strip = p :: ps :=
        (List.map_congr_left fun q hq => (hpieces q hq).1).trans (List.map_id _)
      rw [parse_append hname hjoin, if_neg (by simpa using hunsplit), hsplit, hstrip]

/-- A rule that was read and written is the same when it is read again. -/
theorem parse_text_parse (s : String) : Token.parse (Token.parse s).text = Token.parse s :=
  parse_text_of_isNormal (isNormal_parse s)

end Rule.Token
end ApiSchema
