import ApiSchema.Text.Template

/-!
# Sentences that can be filled in

A sentence without braces (`fill_plain`), and one with a name in braces once (`fill_about`), can be filled in with any
text.
-/
namespace ApiSchema.Text

variable {name text : List Char} {depth fuel : Nat}

/-- A character that stands for itself in a sentence. -/
def isOrdinary (c : Char) : Bool := c != '\x7b' && c != '\x7d'

/-- Characters that stand for themselves do not keep a sentence from being filled. -/
theorem fillFrom_ordinary {cs rest : List Char} (hc : cs.all isOrdinary = true)
    (h : ∃ out, fillFrom name text (depth + 1) fuel rest = .ok out) :
    ∃ out, fillFrom name text (depth + 1) (fuel + cs.length) (cs ++ rest) = .ok out := by
  induction cs with
  | nil => exact h
  | cons c cs ih =>
    simp only [List.all_cons, isOrdinary, Bool.and_eq_true, bne_iff_ne] at hc
    obtain ⟨⟨hopen, hclose⟩, hc⟩ := hc
    obtain ⟨out, hout⟩ := ih hc
    refine ⟨c :: out, ?_⟩
    rw [List.length_cons, ← Nat.add_assoc, List.cons_append, fillFrom]
    · rw [beq_false_of_ne hopen, beq_false_of_ne hclose, hout]
      rfl
    · rintro _ rfl
      exact absurd rfl hopen
    · rintro _ rfl
      exact absurd rfl hclose

theorem fillFrom_nil : ∃ out, fillFrom name text (depth + 1) fuel [] = .ok out := by
  cases fuel <;> exact ⟨[], by rw [fillFrom]⟩

/-- A name that in braces stands for itself, without parts, conversion and specification. -/
structure IsPlain (name : List Char) : Prop where
  head : name.head? ≠ some '\x7b'
  place : ∀ rest, readPlace (name ++ '\x7d' :: rest) = .ok (⟨name, none, [], false⟩, rest)
  value : ∀ text, fieldValue name text name = .ok (.text text)

theorem isPlain_subject : IsPlain "subject".toList := ⟨by decide, fun _ => rfl, fun _ => rfl⟩

theorem isPlain_params : IsPlain "params".toList := ⟨by decide, fun _ => rfl, fun _ => rfl⟩

/-- A name in braces can be filled in, whatever it stands for. -/
theorem fillFrom_name (hname : IsPlain name) {rest : List Char}
    (h : ∃ out, fillFrom name text (depth + 1) fuel rest = .ok out) :
    ∃ out, fillFrom name text (depth + 1) (fuel + 1) ('\x7b' :: (name ++ '\x7d' :: rest)) = .ok out := by
  obtain ⟨out, hout⟩ := h
  refine ⟨text ++ out, ?_⟩
  have hok : ∀ {α β : Type} (a : α) (f : α → Except Fault β), (Except.ok a >>= f) = f a := fun _ _ => rfl
  rw [fillFrom]
  · simp only [hname.place, hok, hname.value, hout, convert]
    rfl
  · intro _ _ h
    cases hn : name with
    | nil => simp [hn] at h
    | cons c cs =>
      rw [hn, List.cons_append, List.cons.injEq] at h
      exact hname.head (by rw [hn, h.1]; rfl)
  · intro _ h
    cases h

theorem fill_plain {sentence : String} (h : sentence.toList.all isOrdinary = true) (name about : String) :
    ∃ out, fill sentence name about = .ok out := by
  have hall : ∃ out, fillFrom name.toList about.toList (1 + 1) (1 + sentence.toList.length) (sentence.toList ++ []) =
      .ok out := fillFrom_ordinary h fillFrom_nil
  rw [List.append_nil, Nat.add_comm 1 sentence.toList.length, String.length_toList] at hall
  obtain ⟨out, hout⟩ := hall
  exact ⟨String.ofList out, congrArg (Except.map String.ofList) hout⟩

theorem fill_about {sentence name : String} (hname : IsPlain name.toList) (start stop : List Char)
    (hs : sentence.toList = start ++ '\x7b' :: (name.toList ++ '\x7d' :: stop))
    (hstart : start.all isOrdinary = true) (hstop : stop.all isOrdinary = true) (about : String) :
    ∃ out, fill sentence name about = .ok out := by
  have hend : ∃ out, fillFrom name.toList about.toList (1 + 1) (name.toList.length + 2 + stop.length) (stop ++ []) =
      .ok out := fillFrom_ordinary hstop fillFrom_nil
  rw [List.append_nil] at hend
  obtain ⟨out, hout⟩ := fillFrom_ordinary hstart (fillFrom_name hname hend)
  have hfuel : sentence.length + 1 = name.toList.length + 2 + stop.length + 1 + start.length := by
    rw [← String.length_toList, hs]
    simp only [List.length_append, List.length_cons]
    omega
  rw [← hs, ← hfuel] at hout
  exact ⟨String.ofList out, congrArg (Except.map String.ofList) hout⟩

end ApiSchema.Text
