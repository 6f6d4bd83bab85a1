import ApiSchema.Proofs.Spelling

/-!
# String literals side by side

String literals that stand side by side in parentheses are one text. Blanks, ends of lines and comments may stand
between them (`Filler`), and a tree of such a row has the literals at the places where its text has them (`IsRow`).

A row is decoded by its own source, without the parentheses around it. So its text is found if and only if the row does
not need the parentheses: between two literals a line ends only after a backslash (`literalValue_enclosed_row`).
Otherwise the row stands for its source (`literalValue_brokenRow`).
-/
namespace ApiSchema.Source

open ApiSchema.Rule (textOf joinPieces?_texts)

/-! ## Between two literals -/

/-- What can stand between two tokens in parentheses. -/
inductive Filler where
  | blank (c : Char) (h : Lexer.isGap c = true)
  /-- A comment with the end of its line. -/
  | comment (text : List Char) (h : '\n' ∉ text)
  /-- A backslash and the end of the line, of one character or two. -/
  | continued (carriage : Bool)

namespace Filler

def text : Filler → List Char
  | .blank c _ => [c]
  | .comment text _ => '#' :: (text ++ ['\n'])
  | .continued carriage => '\\' :: (if carriage then ['\r', '\n'] else ['\n'])

/-- Whether the line does not end, or goes on after its end. -/
def isInline : Filler → Bool
  | .blank c _ => c == ' ' || c == '\t' || c == '\x0c'
  | .comment _ _ => false
  | .continued _ => true

end Filler

variable {t first : Tree} {values : List String} {rest : List (List Filler × Tree)}

theorem unifyLines_cons {c : Char} (hc : c ≠ '\r') (cs : List Char) : unifyLines (c :: cs) = c :: unifyLines cs := by
  rw [unifyLines]
  · exact fun rest h _ => hc h
  · exact hc

theorem unifyLines_return (cs : List Char) : ∃ ds, unifyLines ('\r' :: cs) = '\n' :: ds := by
  cases cs with
  | nil => exact ⟨[], by simp [unifyLines]⟩
  | cons c cs => by_cases h : c = '\n' <;> simp [unifyLines, h]

theorem isInlineGap_cons {c : Char} (hc : c ≠ '\\') (cs : List Char) :
    isInlineGap (c :: cs) = ((c == ' ' || c == '\t' || c == '\x0c') && isInlineGap cs) := by
  rw [isInlineGap]
  exact fun rest h _ => hc h

/-- A line goes on over a filler and what follows it if it goes on over both. -/
theorem isInlineGap_filler (f : Filler) (cs : List Char) :
    isInlineGap (unifyLines (f.text ++ cs)) = (f.isInline && isInlineGap (unifyLines cs)) := by
  cases f with
  | blank c h =>
    by_cases hreturn : c = '\r'
    · subst hreturn
      obtain ⟨ds, hds⟩ := unifyLines_return cs
      simp [Filler.text, Filler.isInline, hds, isInlineGap_cons]
    · have hslash : c ≠ '\\' := by
        rintro rfl
        simp [Lexer.isGap] at h
      simp [Filler.text, Filler.isInline, unifyLines_cons hreturn, isInlineGap_cons hslash]
  | comment text h => simp [Filler.text, Filler.isInline, unifyLines_cons, isInlineGap_cons]
  | continued carriage => cases carriage <;> simp [Filler.text, Filler.isInline, unifyLines, isInlineGap]

/-- The source of several fillers. -/
def gapText (fillers : List Filler) : List Char := fillers.flatMap Filler.text

theorem isInlineGap_gapText (fillers : List Filler) :
    isInlineGap (unifyLines (gapText fillers)) = fillers.all Filler.isInline := by
  induction fillers with
  | nil => rfl
  | cons f fillers ih => rw [gapText, List.flatMap_cons, isInlineGap_filler, ← gapText, ih, List.all_cons]

/-! ## Rows -/

/-- The source of some literals, each after what stands before it. -/
def rowText : List (List Filler × Tree) → List Char
  | [] => []
  | (gap, p) :: rest => gapText gap ++ (p.text.toList ++ rowText rest)

/-- Literals have their places one after the other from an offset on, each after what stands before it. -/
def ArePlaced (start : Nat) : List (List Filler × Tree) → Prop
  | [] => True
  | (gap, p) :: rest =>
    p.span.start = start + (gapText gap).length ∧ p.span.stop = p.span.start + p.text.length ∧
      ArePlaced p.span.stop rest

/-- A tree of string literals side by side. -/
structure IsRow (t first : Tree) (rest : List (List Filler × Tree)) : Prop where
  form : t.form = .concatenatedString
  parts : t.children.filter (·.form == .string) = first :: rest.map (·.2)
  text : t.text.toList = first.text.toList ++ rowText rest
  start : first.span.start = t.span.start
  stop : first.span.stop = first.span.start + first.text.length
  placed : ArePlaced first.span.stop rest

theorem between_eq {start stop : Nat} {before gap after : List Char}
    (htext : t.text.toList = before ++ (gap ++ after)) (hstart : start = t.span.start + before.length)
    (hstop : stop = start + gap.length) : between t start stop = unifyLines gap := by
  subst hstop hstart
  simp [between, htext]

/-- The literals after one of a row are joined to it if the lines go on between them. -/
theorem partsJoined_from {p : Tree} {before : List Char}
    (htext : t.text.toList = before ++ rowText rest) (hstop : p.span.stop = t.span.start + before.length)
    (hplaced : ArePlaced p.span.stop rest) :
    partsJoined t (p :: rest.map (·.2)) = rest.all fun r => r.1.all Filler.isInline := by
  induction rest generalizing p before with
  | nil => rfl
  | cons r rest ih =>
    obtain ⟨gap, q⟩ := r
    obtain ⟨hstart, hend, hrest⟩ := hplaced
    rw [rowText] at htext
    have hnext : t.text.toList = (before ++ (gapText gap ++ q.text.toList)) ++ rowText rest := by simp [htext]
    have hlength : q.span.stop = t.span.start + (before ++ (gapText gap ++ q.text.toList)).length := by
      simp only [List.length_append, String.length_toList]
      omega
    rw [List.map_cons, partsJoined, between_eq htext hstop hstart, isInlineGap_gapText, ih hnext hlength hrest,
      List.all_cons]

theorem IsRow.partsJoined (h : IsRow t first rest) :
    partsJoined t (first :: rest.map (·.2)) = rest.all fun r => r.1.all Filler.isInline := by
  refine partsJoined_from h.text ?_ h.placed
  rw [h.stop, h.start, String.length_toList]

/-! ## Values -/

/-- A literal that stands for a text is not one of bytes. -/
theorem exists_piece {p : Tree} {v : String} (hform : p.form = .string) (h : literalValue p = .ok (.str v)) :
    ∃ content, piece? p.text = some ⟨false, content⟩ ∧ textOf content = v := by
  obtain ⟨form, role, span, text, children⟩ := p
  cases hform
  rw [literalValue] at h
  cases hpiece : piece? text with
  | none => simp [stringLiteral?, hpiece, pure, Except.pure] at h
  | some piece =>
    obtain ⟨bytes, content⟩ := piece
    cases bytes with
    | true => simp [stringLiteral?, hpiece, joinPieces?, pure, Except.pure] at h
    | false =>
      refine ⟨content, hpiece, ?_⟩
      simpa [stringLiteral?, hpiece, joinPieces?, pure, Except.pure, textOf] using h

theorem textOf_append (xs ys : List Nat) : textOf (xs ++ ys) = textOf xs ++ textOf ys := by
  simp [textOf, String.ofList_append]

/-- Literals that stand for texts stand for all of their texts together. -/
theorem exists_pieces {ps : List Tree} (hforms : ∀ p ∈ ps, p.form = .string)
    (h : List.Forall₂ (fun p v => literalValue p = .ok (.str v)) ps values) :
    ∃ pieces : List Piece, ps.mapM (fun p => piece? p.text) = some pieces ∧ pieces.length = ps.length ∧
      (∀ p ∈ pieces, p.bytes = false) ∧ textOf (pieces.flatMap (·.content)) = String.join values := by
  induction h with
  | nil => exact ⟨[], rfl, rfl, by simp, rfl⟩
  | @cons p v ps values hp hrest ih =>
    obtain ⟨hform, hforms⟩ := List.forall_mem_cons.1 hforms
    obtain ⟨content, hpiece, hcontent⟩ := exists_piece hform hp
    obtain ⟨pieces, hpieces, hlength, htexts, hjoin⟩ := ih hforms
    refine ⟨⟨false, content⟩ :: pieces, ?_, congrArg (· + 1) hlength, ?_, ?_⟩
    · simp [List.mapM_cons, hpiece, hpieces]
    · exact List.forall_mem_cons.2 ⟨rfl, htexts⟩
    · rw [List.flatMap_cons, textOf_append, hcontent, hjoin, String.join_cons]

/-- A row stands for its texts together if the lines go on between its literals, and else for its source. -/
theorem IsRow.literalValue
    (h : IsRow t first rest)
    (hvalues : List.Forall₂ (fun p v => literalValue p = .ok (.str v)) (first :: rest.map (·.2)) values) :
    literalValue t =
      .ok (if rest.all fun r => r.1.all Filler.isInline then .str (String.join values) else .expr t.text) := by
  have hforms : ∀ p ∈ first :: rest.map (·.2), p.form = .string := fun p hp => by
    rw [← h.parts] at hp
    exact eq_of_beq (List.mem_filter.1 hp).2
  obtain ⟨pieces, hpieces, hlength, htexts, hjoin⟩ := exists_pieces hforms hvalues
  have hne : pieces ≠ [] := by
    rintro rfl
    cases hlength
  have hliteral : stringLiteral? t =
      if rest.all fun r => r.1.all Filler.isInline then some (.str (String.join values)) else none := by
    simp only [stringLiteral?, h.form, h.parts, h.partsJoined, hpieces]
    split
    · exact hjoin ▸ joinPieces?_texts hne htexts
    · rfl
  obtain ⟨form, role, span, text, children⟩ := t
  cases h.form
  rw [Source.literalValue, hliteral]
  split <;> rfl

theorem literalValue_parenthesized {role : Option Role} {span : Span} {text : String} {inner : Tree}
    {after : List Tree} :
    literalValue (.node .parenthesized role span text (inner :: after)) = literalValue inner := by
  rw [literalValue]

/-- String literals side by side in parentheses stand for their texts together if and only if no line ends between two
of them, other than after a backslash. Otherwise they stand for their source. -/
theorem literalValue_enclosed_row
    (role : Option Role) (span : Span) (text : String) (after : List Tree) (hrow : IsRow t first rest)
    (hvalues : List.Forall₂ (fun p v => literalValue p = .ok (.str v)) (first :: rest.map (·.2)) values) :
    (literalValue (.node .parenthesized role span text (t :: after)) = .ok (.str (String.join values)) ↔
      ∀ r ∈ rest, ∀ f ∈ r.1, f.isInline = true) ∧
    ((∃ r ∈ rest, ∃ f ∈ r.1, f.isInline = false) →
      literalValue (.node .parenthesized role span text (t :: after)) = .ok (.expr t.text)) := by
  rw [literalValue_parenthesized, hrow.literalValue hvalues]
  by_cases hinline : ∀ r ∈ rest, ∀ f ∈ r.1, f.isInline = true
  · have hall : (rest.all fun r => r.1.all Filler.isInline) = true := by simpa using hinline
    rw [if_pos hall]
    refine ⟨iff_of_true rfl hinline, ?_⟩
    rintro ⟨r, hr, f, hf, hbreak⟩
    rw [hinline r hr f hf] at hbreak
    cases hbreak
  · have hall : ¬ (rest.all fun r => r.1.all Filler.isInline) = true := by simpa using hinline
    rw [if_neg hall]
    exact ⟨iff_of_false nofun hinline, fun _ => rfl⟩

/-! ## Rows as they are written -/

open Building (whole leaf)

/-- Literals from an offset on, each after what stands before it. -/
def placedFrom (start : Nat) : List (List Filler × String) → List (List Filler × Tree)
  | [] => []
  | (gap, text) :: rest =>
    let place := start + (gapText gap).length
    (gap, leaf .string none text place) :: placedFrom (place + text.length) rest

section

variable (start : Nat) (first : String) (rest : List (List Filler × String))

theorem arePlaced_placedFrom :
    ArePlaced start (placedFrom start rest) := by
  induction rest generalizing start with
  | nil => trivial
  | cons r rest ih => exact ⟨rfl, rfl, ih _⟩

theorem filter_placedFrom :
    ((placedFrom start rest).map (·.2)).filter (·.form == .string) = (placedFrom start rest).map (·.2) := by
  induction rest generalizing start with
  | nil => rfl
  | cons r rest ih => simp [placedFrom, leaf, whole, ih]

/-- A row of literals at an offset. -/
def rowAt : Tree :=
  let parts := placedFrom (start + first.length) rest
  whole .concatenatedString none (String.ofList (first.toList ++ rowText parts))
    (fun _ => leaf .string none first start :: parts.map (·.2)) start

theorem isRow_rowAt :
    IsRow (rowAt start first rest) (leaf .string none first start) (placedFrom (start + first.length) rest) where
  form := rfl
  parts := congrArg (_ :: ·) (filter_placedFrom _ rest)
  text := String.toList_ofList
  start := rfl
  stop := rfl
  placed := arePlaced_placedFrom _ rest

/-- A literal that stands for a text. -/
def IsWritten (literal value : String) : Prop :=
  (piece? literal).map (fun p => (p.bytes, textOf p.content)) = some (false, value)

instance (literal value : String) : Decidable (IsWritten literal value) := inferInstanceAs (Decidable (_ = _))

theorem literalValue_of_isWritten {literal value : String} (h : IsWritten literal value) (start : Nat) :
    literalValue (leaf .string none literal start) = .ok (.str value) := by
  obtain ⟨⟨bytes, content⟩, hpiece, hparts⟩ := Option.map_eq_some_iff.1 h
  cases hparts
  exact (Rule.IsText.single hpiece).literalValue

/-- A row of literals in parentheses. -/
def enclosedRow : Tree :=
  let row := rowAt 1 first rest
  whole .parenthesized none ("(" ++ row.text ++ ")") (fun _ => [row]) 0

end

/-- Three literals in one line that goes on after a backslash. The last one has a line end in it. -/
def longRow : List (List Filler × String) :=
  [([.blank ' ' rfl], "\"b\""), ([.blank '\t' rfl, .continued false], "r'''c\nd'''")]

theorem literalValue_longRow :
    (∀ r ∈ longRow, ∀ f ∈ r.1, f.isInline = true) ∧ literalValue (enclosedRow "'a'" longRow) = .ok (.str "abc\nd") := by
  have hvalues : List.Forall₂ (fun p v => literalValue p = .ok (.str v))
      (leaf .string none "'a'" 1 :: (placedFrom (1 + "'a'".length) longRow).map (·.2)) ["a", "b", "c\nd"] :=
    .cons (literalValue_of_isWritten (by decide +kernel) _) (.cons (literalValue_of_isWritten (by decide +kernel) _)
      (.cons (literalValue_of_isWritten (by decide +kernel) _) .nil))
  have hinline : ∀ r ∈ longRow, ∀ f ∈ r.1, f.isInline = true := by simp [longRow, Filler.isInline]
  have hrow := isRow_rowAt 1 "'a'" longRow
  refine ⟨hinline, ((literalValue_enclosed_row _ _ _ [] hrow hvalues).1.2 ?_)⟩
  simpa [placedFrom, longRow] using hinline

/-- Two literals on two lines, and two with a comment between them. Neither row stands for its text. -/
theorem literalValue_brokenRow :
    IsWritten "'a'" "a" ∧ IsWritten "'b'" "b" ∧
    literalValue (enclosedRow "'a'" [([.blank '\n' rfl, .blank ' ' rfl], "'b'")]) = .ok (.expr "'a'\n 'b'") ∧
    literalValue (enclosedRow "'a'" [([.blank ' ' rfl, .comment ['!'] (by decide)], "'b'")]) =
      .ok (.expr "'a' #!\n'b'") := by
  have ha : IsWritten "'a'" "a" := by decide +kernel
  have hb : IsWritten "'b'" "b" := by decide +kernel
  have hvalues : ∀ gap, List.Forall₂ (fun p v => literalValue p = .ok (.str v))
      (leaf .string none "'a'" 1 :: (placedFrom (1 + "'a'".length) [(gap, "'b'")]).map (·.2)) ["a", "b"] := fun gap =>
    .cons (literalValue_of_isWritten ha _) (.cons (literalValue_of_isWritten hb _) .nil)
  refine ⟨ha, hb, ?_, ?_⟩
  · exact literalValue_parenthesized.trans ((isRow_rowAt 1 "'a'" _).literalValue (hvalues _))
  · exact literalValue_parenthesized.trans ((isRow_rowAt 1 "'a'" _).literalValue (hvalues _))

end ApiSchema.Source
