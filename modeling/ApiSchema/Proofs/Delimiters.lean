import ApiSchema.Pattern.Sample
import ApiSchema.Proofs.TokenText

/-!
# Delimiters of a pattern

A pattern can be written between two delimiters, with flags after the second one (`Delimited`). A text tells what lies
between them, as no delimiter is a letter (`undelimited?_eq_some_iff`).

Cleaning takes the blanks at the ends of a text and then one pair of delimiters. What is left is clean if it has no
blanks at its ends and no delimiters of its own (`IsClean`), and exactly then it stays as it is when it is cleaned again
(`clean_eq_self_iff`). What lies between delimiters need not be clean (`clean_clean_iff`).
-/
namespace ApiSchema.Pattern

open Text

variable {cs inside : List Char} {text : String}

/-- A text between two delimiters, with flags after the second. -/
inductive Delimited : List Char → List Char → Prop
  | intro {d : Char} {inside flags : List Char} (hd : d ∈ delimiters) (hinside : inside ≠ [])
    (hflags : ∀ c ∈ flags, isAsciiLetter c = true) : Delimited (d :: (inside ++ d :: flags)) inside

/-- A pattern without blanks at its ends and without delimiters. -/
structure IsClean (cs : List Char) : Prop where
  trimmed : IsTrimmed cs
  bare : ∀ inside, ¬ Delimited cs inside

theorem isAsciiLetter_of_mem_delimiters {d : Char} (hd : d ∈ delimiters) : isAsciiLetter d = false := by
  have hall : delimiters.all (!isAsciiLetter ·) = true := by decide
  simpa using List.all_eq_true.1 hall d hd

/-- The closing delimiter is the last character that is no letter. -/
theorem undelimited?_eq_some_iff : undelimited? cs = some inside ↔ Delimited cs inside := by
  constructor
  · intro h
    cases cs with
    | nil => cases h
    | cons d rest =>
      unfold undelimited? at h
      dsimp only at h
      split at h
      · rename_i hd
        split at h
        · rename_i e before hdrop
          split at h
          · rename_i hclosed
            obtain ⟨he, hne⟩ := Bool.and_eq_true_iff.1 hclosed
            cases eq_of_beq he
            cases h
            have hrest : rest = before.reverse ++ d :: (rest.reverse.takeWhile isAsciiLetter).reverse := by
              have hcut := @List.takeWhile_append_dropWhile _ isAsciiLetter rest.reverse
              rw [hdrop] at hcut
              simpa using (congrArg List.reverse hcut).symm
            rw [hrest]
            refine .intro (List.contains_iff_mem.1 hd) (by simpa using hne) fun c hc => ?_
            exact List.mem_takeWhile_imp (List.mem_reverse.1 hc)
          · cases h
        · cases h
      · cases h
  · rintro ⟨hd, hinside, hflags⟩
    rename_i d flags
    have hletters : flags.reverse.dropWhile isAsciiLetter = [] :=
      List.dropWhile_eq_nil_iff.2 fun c hc => hflags c (List.mem_reverse.1 hc)
    have hdrop : (inside ++ d :: flags).reverse.dropWhile isAsciiLetter = d :: inside.reverse := by
      rw [List.reverse_append, List.reverse_cons, List.append_assoc, List.singleton_append,
        dropWhile_append_cons (isAsciiLetter_of_mem_delimiters hd), hletters, List.nil_append]
    unfold undelimited?
    dsimp only
    rw [if_pos (List.contains_iff_mem.2 hd), hdrop]
    simp [hinside]

theorem Delimited.unique {inside' : List Char} (h : Delimited cs inside) (h' : Delimited cs inside') :
    inside = inside' :=
  Option.some.inj ((undelimited?_eq_some_iff.2 h).symm.trans (undelimited?_eq_some_iff.2 h'))

theorem Delimited.length_lt (h : Delimited cs inside) : inside.length < cs.length := by
  cases h
  simp only [List.length_cons, List.length_append]
  omega

theorem undelimited?_eq_none (h : ∀ inside, ¬ Delimited cs inside) : undelimited? cs = none :=
  Option.eq_none_iff_forall_ne_some.2 fun inside hinside => h inside (undelimited?_eq_some_iff.1 hinside)

/-! ## Cleaning -/

theorem clean_of_delimited (h : Delimited (strip text).toList inside) : clean text = String.ofList inside := by
  simp [clean, undelimited?_eq_some_iff.2 h]

theorem clean_of_bare (h : ∀ inside, ¬ Delimited (strip text).toList inside) : clean text = strip text := by
  simp [clean, undelimited?_eq_none h]

theorem length_strip_le (text : String) : (strip text).toList.length ≤ text.toList.length := by
  rw [strip, stripOf, String.toList_ofList]
  exact Nat.le_trans (List.rdropWhile_prefix _ _).length_le (List.dropWhile_suffix _).length_le

/-- Cleaning leaves clean patterns alone, and takes something from all others. -/
theorem clean_eq_self_iff : clean text = text ↔ IsClean text.toList := by
  constructor
  · intro h
    by_cases hdelimited : ∃ inside, Delimited (strip text).toList inside
    · obtain ⟨inside, hinside⟩ := hdelimited
      have hsame : text.toList = inside := by
        rw [← h, clean_of_delimited hinside, String.toList_ofList]
      have hlt := hinside.length_lt
      have hle := length_strip_le text
      rw [hsame] at hle
      omega
    · have hbare := not_exists.1 hdelimited
      rw [clean_of_bare hbare] at h
      exact ⟨h ▸ isTrimmed_strip text, by rwa [h] at hbare⟩
  · rintro ⟨htrimmed, hbare⟩
    have hstrip := strip_eq_self htrimmed
    rw [clean_of_bare (by rwa [hstrip]), hstrip]

/-- A pattern that was cleaned stays as it is when it is cleaned again, exactly if it was not written between delimiters
or what lies between them is clean. -/
theorem clean_clean_iff (text : String) :
    clean (clean text) = clean text ↔ ∀ inside, Delimited (strip text).toList inside → IsClean inside := by
  rw [clean_eq_self_iff]
  by_cases hdelimited : ∃ inside, Delimited (strip text).toList inside
  · obtain ⟨inside, hinside⟩ := hdelimited
    rw [clean_of_delimited hinside, String.toList_ofList]
    exact ⟨fun h inside' h' => hinside.unique h' ▸ h, fun h => h inside hinside⟩
  · have hbare := not_exists.1 hdelimited
    rw [clean_of_bare hbare]
    exact ⟨fun _ inside h => absurd h (hbare inside), fun _ => ⟨isTrimmed_strip text, hbare⟩⟩

/-- Other delimiters or blanks lie between the delimiters. -/
theorem clean_clean_ne :
    (clean "#/a/#" = "/a/" ∧ clean (clean "#/a/#") = "a") ∧ clean "/ a /" = " a " ∧ clean (clean "/ a /") = "a" := by
  decide

end ApiSchema.Pattern
