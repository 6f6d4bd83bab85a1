import ApiSchema.Proofs.TypeWords

/-!
# Types that read back from their text

A type is written as names, brackets, bars and literal values, and it is read by words. The words of its text are those
it is written in (`Writable.lexes`), and reading them gives the type (`Writable.reads`): an argument is read up to the
comma or bracket after it, so it is never skipped (`run_argument`), and a member of a union up to the bar. So a type
that its text writes in full is read back from the text (`read_text_of_writable`), whatever quotes, brackets or commas
its values hold.
-/
namespace ApiSchema

/-- A value that its literal writes: nothing, a truth value, a text, or a whole number that is not too long to be
read. -/
def Value.Writable : Value → Prop
  | .null | .bool _ | .str _ => True
  | .int n => n.natAbs < 10 ^ Source.maxDigits
  | _ => False

namespace TypeExpr

open Text

/-- A type that its text writes in full. -/
inductive Writable : TypeExpr → Prop
  | name {n : String} (hn : isDotted n = true) (hbase : lastSegment n ≠ "Literal") : Writable (named n)
  | ellipsis : Writable (named ellipsisName)
  | generic {n : String} {a : TypeExpr} {as : List TypeExpr} (hn : isDotted n = true)
      (hbase : lastSegment n ≠ "Literal") (h : ∀ e ∈ a :: as, Writable e) : Writable (.mk n (a :: as) [])
  | union {a b : TypeExpr} {es : List TypeExpr} (hbar : ∀ e ∈ a :: b :: es, e.name ≠ barName)
      (h : ∀ e ∈ a :: b :: es, Writable e) : Writable (.mk barName (a :: b :: es) [])
  | literal {vs : List Value} (h : ∀ v ∈ vs, v.Writable) : Writable (.mk "Literal" [] vs)

/-! ## Words -/

/-- The word that a value is written as. -/
def valueWord : Value → Word
  | .str s => ⟨.string, quoted s⟩
  | .int n => ⟨.number, toString n⟩
  | v => ⟨.name, v.literalText⟩

mutual

/-- The words that a type is written in. -/
def wordsOf : TypeExpr → List Word
  | .mk name args values =>
    if lastSegment name == "Literal" then
      ⟨.name, "Literal"⟩ :: mark "[" :: ([mark ","].intercalate (values.map fun v => [valueWord v]) ++ [mark "]"])
    else if name == barName then [mark "|"].intercalate (wordsOfEach args)
    else match args with
      | [] => [⟨if name == ellipsisName then .ellipsis else .name, name⟩]
      | a :: as => ⟨.name, name⟩ :: mark "[" :: ([mark ","].intercalate (wordsOf a :: wordsOfEach as) ++ [mark "]"])

def wordsOfEach : List TypeExpr → List (List Word)
  | [] => []
  | e :: es => wordsOf e :: wordsOfEach es

end

theorem texts_eq_map (es : List TypeExpr) : texts es = es.map text := by
  induction es with
  | nil => rfl
  | cons e es ih => rw [texts, ih, List.map_cons]

theorem wordsOfEach_eq_map (es : List TypeExpr) : wordsOfEach es = es.map wordsOf := by
  induction es with
  | nil => rfl
  | cons e es ih => rw [wordsOfEach, ih, List.map_cons]

section

variable {n : String} {v : Value} {vs : List Value} {e a : TypeExpr} {as es : List TypeExpr}

theorem ne_of_isDotted (h : isDotted n = true) : n ≠ barName ∧ n ≠ ellipsisName := by
  constructor
  · rintro rfl
    exact absurd h (by decide)
  · rintro rfl
    exact absurd h (by decide)

theorem text_named (hbase : lastSegment n ≠ "Literal") (hbar : n ≠ barName) : text (named n) = n := by
  change (if lastSegment n == "Literal" then _ else if n == barName then _ else n) = n
  simp [hbase, hbar]

theorem text_generic (hbase : lastSegment n ≠ "Literal") (hbar : n ≠ barName) :
    text (.mk n (a :: as) []) = n ++ "[" ++ join ", " ((a :: as).map text) ++ "]" := by
  change (if lastSegment n == "Literal" then _ else if n == barName then _
    else n ++ "[" ++ join ", " (text a :: texts as) ++ "]") = _
  simp [hbase, hbar, texts_eq_map]

theorem text_union : text (.mk barName es []) = join " | " (es.map text) := by
  have hall : ∀ n, ¬ (lastSegment n == "Literal") = true → (n == barName) = true →
      text (.mk n es []) = join " | " (texts es) := by
    intro n hbase hbar
    cases es <;> exact (if_neg hbase).trans (if_pos hbar)
  rw [hall barName (by decide) rfl, texts_eq_map]

theorem text_literal :
    text (.mk "Literal" [] vs) = "Literal" ++ "[" ++ join ", " (vs.map Value.literalText) ++ "]" := by
  have hbase : lastSegment "Literal" = "Literal" := by decide
  change (if lastSegment "Literal" == "Literal" then "Literal[" ++ join ", " (vs.map Value.literalText) ++ "]" else _) =
      _
  simp [hbase]

theorem wordsOf_named (hbase : lastSegment n ≠ "Literal") (hn : isDotted n = true) :
    wordsOf (named n) = [⟨.name, n⟩] := by
  change (if lastSegment n == "Literal" then _ else if n == barName then _
    else [Word.mk (if n == ellipsisName then .ellipsis else .name) n]) = _
  simp [hbase, ne_of_isDotted hn]

theorem wordsOf_generic (hbase : lastSegment n ≠ "Literal") (hn : isDotted n = true) :
    wordsOf (.mk n (a :: as) []) =
      ⟨.name, n⟩ :: mark "[" :: ([mark ","].intercalate ((a :: as).map wordsOf) ++ [mark "]"]) := by
  change (if lastSegment n == "Literal" then _ else if n == barName then _
    else Word.mk .name n :: mark "[" :: ([mark ","].intercalate (wordsOf a :: wordsOfEach as) ++ [mark "]"])) = _
  simp [hbase, ne_of_isDotted hn, wordsOfEach_eq_map]

theorem wordsOf_union : wordsOf (.mk barName es []) = [mark "|"].intercalate (es.map wordsOf) := by
  have hall : ∀ n, ¬ (lastSegment n == "Literal") = true → (n == barName) = true →
      wordsOf (.mk n es []) = [mark "|"].intercalate (wordsOfEach es) := by
    intro n hbase hbar
    cases es <;> exact (if_neg hbase).trans (if_pos hbar)
  rw [hall barName (by decide) rfl, wordsOfEach_eq_map]

theorem wordsOf_literal : wordsOf (.mk "Literal" [] vs) =
    ⟨.name, "Literal"⟩ :: mark "[" :: ([mark ","].intercalate (vs.map fun v => [valueWord v]) ++ [mark "]"]) := by
  have hbase : (lastSegment "Literal" == "Literal") = true := by decide
  exact if_pos hbase

theorem lexes_literalText (h : v.Writable) : Lexes v.literalText.toList [valueWord v] := by
  cases v with
  | null => exact (isCut_name (by decide : isDotted "None" = true)).lexes
  | bool b =>
    cases b with
    | false => exact (isCut_name (by decide : isDotted "False" = true)).lexes
    | true => exact (isCut_name (by decide : isDotted "True" = true)).lexes
  | int n => exact (isCut_toString n).lexes
  | str s => exact (isCut_quoted s).lexes
  | _ => exact h.elim

theorem Writable.lexes (h : Writable e) : Lexes e.text.toList (wordsOf e) := by
  induction h with
  | name hn hbase =>
    rw [text_named hbase (ne_of_isDotted hn).1, wordsOf_named hbase hn]
    exact (isCut_name hn).lexes
  | ellipsis => exact isCut_ellipsis.lexes
  | generic hn hbase _ ih =>
    rw [text_generic hbase (ne_of_isDotted hn).1, wordsOf_generic hbase hn]
    simpa using Lexes.bracket hn (Lexes.join separates_comma ih)
  | union _ _ ih =>
    rw [text_union, wordsOf_union]
    exact Lexes.join separates_bar ih
  | literal h =>
    rw [text_literal, wordsOf_literal]
    have hvalues := Lexes.join separates_comma fun v hv => lexes_literalText (h v hv)
    simpa using Lexes.bracket (by decide : isDotted "Literal" = true) hvalues

end

/-! ## Reading -/

namespace Reader

section

variable {α β : Type} {ws rest : List Word} {wss : List (List Word)}

theorem run_bind {x : Reader α} {f : α → Reader β} {a : α} (h : x.run ws = .ok (a, rest)) :
    (x >>= f).run ws = (f a).run rest := by
  rw [StateT.run_bind, h]
  rfl

theorem run_get (ws : List Word) : (get : Reader (List Word)).run ws = .ok (ws, ws) := rfl

theorem run_peek (ws : List Word) : peek.run ws = .ok (ws.head?, ws) := rfl

theorem run_take (w : Word) (ws : List Word) : take.run (w :: ws) = .ok (w, ws) := rfl

theorem run_accept (m : String) (ws : List Word) : (accept m).run (mark m :: ws) = .ok (true, ws) := by
  have hahead : (ahead m).run (mark m :: ws) = .ok (true, mark m :: ws) := by
    simp [ahead, peek, mark]
    rfl
  rw [accept, run_bind hahead]
  rfl

theorem run_accept_of_ne {m : String} (h : ws.head? ≠ some (mark m)) : (accept m).run ws = .ok (false, ws) := by
  have hahead : (ahead m).run ws = .ok (false, ws) := by
    have hmark : (ws.head? == some (mark m)) = false := beq_eq_false_iff_ne.2 h
    rw [← hmark]
    rfl
  rw [accept, run_bind hahead]
  rfl

/-- Words in brackets with commas between them, the closing bracket, and what follows. -/
def listed (wss : List (List Word)) (rest : List Word) : List Word := [mark ","].intercalate wss ++ mark "]" :: rest

/-- What comes after the first of some words in brackets. -/
def following (wss : List (List Word)) (rest : List Word) : List Word := wss.flatMap (mark "," :: ·) ++ mark "]" :: rest

theorem listed_cons (ws : List Word) (wss : List (List Word)) (rest : List Word) :
    listed (ws :: wss) rest = ws ++ following wss rest := by
  rw [listed, intercalate_cons, List.append_assoc, following]

theorem following_cons (ws : List Word) (wss : List (List Word)) (rest : List Word) :
    following (ws :: wss) rest = mark "," :: listed (ws :: wss) rest := by
  rw [listed_cons, following, List.flatMap_cons, List.append_assoc, List.cons_append, following]

theorem length_le_listed (wss : List (List Word)) (rest : List Word) : wss.length ≤ (listed wss rest).length := by
  cases wss with
  | nil => exact Nat.zero_le _
  | cons ws wss =>
    have hcount := length_le_flatMap (mark ",") wss
    simp only [listed_cons, following, List.length_append, List.length_cons]
    omega

theorem run_accept_following (wss : List (List Word)) (rest : List Word) :
    ∃ more, (accept ",").run (following wss rest) = .ok (more, listed wss rest) := by
  cases wss with
  | nil => exact ⟨false, run_accept_of_ne (by simp [following, mark])⟩
  | cons ws wss =>
    rw [following_cons]
    exact ⟨true, run_accept "," _⟩

/-- Nothing, or one of some marks. -/
def Ends (marks : List String) (rest : List Word) : Prop := ∀ w ∈ rest.head?, ∃ m ∈ marks, w = mark m

theorem ends_following (wss : List (List Word)) (rest : List Word) : Ends [",", "]"] (following wss rest) := by
  intro w hw
  cases wss with
  | nil => exact ⟨"]", by decide, (Option.some.inj hw).symm⟩
  | cons ws wss => exact ⟨",", by decide, (Option.some.inj hw).symm⟩

/-- A member of a union ends at the bar of the next one, or where the union ends. -/
theorem ends_members (es : List TypeExpr) (hrest : Ends [",", "]"] rest) :
    Ends [",", "]", "|"] ((es.map wordsOf).flatMap (mark "|" :: ·) ++ rest) := by
  intro w hw
  cases es with
  | nil =>
    obtain ⟨m, hm, rfl⟩ := hrest w hw
    exact ⟨m, List.mem_append_left ["|"] hm, rfl⟩
  | cons e es => exact ⟨"|", by decide, (Option.some.inj hw).symm⟩

theorem Ends.head?_ne {marks : List String} (h : Ends marks rest) {m : String} (hm : m ∉ marks) :
    rest.head? ≠ some (mark m) := by
  intro hhead
  obtain ⟨m', hm', heq⟩ := h _ hhead
  exact hm ((Word.mk.inj heq).2 ▸ hm')

end

section

variable {v : Value} {vs : List Value}

theorem literalOf?_str (s : String) : literalOf? ⟨.string, quoted s⟩ = some (.str s) := by
  simp [literalOf?, Source.piece?_quoted, Function.comp_def]

theorem literalOf?_int {n : Int} (h : n.natAbs < 10 ^ Source.maxDigits) :
    literalOf? ⟨.number, toString n⟩ = some (.int n) := by
  have hascii : (toString n).toList.any (fun c => 127 < c.toNat) = false := by
    rw [List.any_eq_false]
    intro c hc
    rcases mem_toString hc with rfl | hdigit
    · decide
    · have : c.toNat ≤ 0x39 := (Char.isDigit_iff_toNat.1 hdigit).2
      simp
      omega
  have hlist := toList_toString n
  have hvalue := Source.numberValue?_toDigits h
  simp only [literalOf?, hascii, if_neg Bool.false_ne_true]
  by_cases hn : n < 0
  · rw [decide_eq_true hn] at hlist
    have hsign : -(n.natAbs : Int) = n := by omega
    rw [hlist]
    change (Source.numberValue? (String.ofList (Nat.toDigits 10 n.natAbs))).bind (Source.signed? true) = _
    rw [hvalue, Option.bind_some, Source.signed?, if_pos rfl, hsign]
  · rw [decide_eq_false hn] at hlist
    have hsign : (n.natAbs : Int) = n := by omega
    have htext : toString n = String.ofList (Nat.toDigits 10 n.natAbs) := by
      rw [← String.ofList_toList (s := toString n), hlist]
      rfl
    split
    · rename_i digits heq
      have hmem : '-' ∈ Nat.toDigits 10 n.natAbs := by simp_all
      cases Nat.isDigit_of_mem_toDigits (by decide) (by decide) hmem
    · rw [htext, hvalue, hsign]

theorem run_literal {w : Word} (h : literalOf? w = some v) (ws : List Word) : (literal w).run ws = .ok (v, ws) := by
  rw [literal, h]
  rfl

theorem run_literalValues (h : ∀ v ∈ vs, v.Writable) {n : Nat} (hn : vs.length < n) (rest : List Word) :
    (literalValues n).run (listed (vs.map fun v => [valueWord v]) rest) = .ok (vs, rest) := by
  induction vs generalizing n with
  | nil =>
    cases n with
    | zero => cases hn
    | succ n =>
      rw [literalValues, listed, List.map_nil, List.intercalate_nil, List.nil_append, run_bind (run_accept "]" rest)]
      rfl
  | cons v vs ih =>
    cases n with
    | zero => cases hn
    | succ n =>
      have hvs := ih (fun u hu => h u (List.mem_cons_of_mem v hu)) (Nat.lt_of_succ_lt_succ hn)
      obtain ⟨more, hmore⟩ := run_accept_following (vs.map fun v => [valueWord v]) rest
      -- values are read by the kind of their word, and what follows is read alike
      have htail : (accept "," >>= fun _ => literalValues n >>= fun us => pure ([v] ++ us) : Reader (List Value)).run
          (following (vs.map fun v => [valueWord v]) rest) = .ok (v :: vs, rest) := by
        rw [run_bind hmore, run_bind hvs]
        rfl
      have hhead : ([valueWord v] ++ following (vs.map fun v => [valueWord v]) rest).head? ≠ some (mark "]") := by
        cases v <;> simp [valueWord, mark]
      rw [List.map_cons, listed_cons, literalValues, run_bind (run_accept_of_ne hhead), if_neg Bool.false_ne_true,
        List.singleton_append, run_bind (run_take _ _)]
      have hv := h v List.mem_cons_self
      cases v with
      | null => exact htail
      | bool b => cases b <;> exact htail
      | int n => exact (run_bind (run_literal (literalOf?_int hv) _)).trans htail
      | str s => exact (run_bind (run_literal (literalOf?_str s) _)).trans htail
      | _ => exact hv.elim

end

section

variable {self : Reader TypeExpr} {e : TypeExpr} {es : List TypeExpr} {ws rest : List Word}

/-- An argument that is read up to its end is not skipped. -/
theorem run_argument (h : self.run ws = .ok (e, rest)) (hrest : Ends [",", "]"] rest) :
    (argument self).run ws = .ok (e, rest) := by
  rw [argument, run_bind (run_get ws)]
  cases rest with
  | nil =>
    simp only [h]
    rfl
  | cons w rest =>
    obtain ⟨m, hm, rfl⟩ := hrest w rfl
    simp only [List.mem_cons, List.not_mem_nil, or_false] at hm
    simp only [h]
    rcases hm with rfl | rfl <;> rfl

/-- A type whose words do not start with a mark. -/
def Starts (e : TypeExpr) : Prop := ∃ w ws, wordsOf e = w :: ws ∧ w.kind ≠ .punctuation

theorem Starts.head?_ne (h : Starts e) (m : String) (rest : List Word) : (wordsOf e ++ rest).head? ≠ some (mark m) := by
  obtain ⟨w, ws, hws, hw⟩ := h
  rw [hws]
  rintro ⟨⟩
  exact hw rfl

/-- Arguments that are read one by one are read up to the closing bracket. -/
theorem run_arguments (hstarts : ∀ e ∈ es, Starts e)
    (h : ∀ e ∈ es, ∀ rest, Ends [",", "]"] rest → self.run (wordsOf e ++ rest) = .ok (e, rest)) {n : Nat}
    (hn : es.length < n) (rest : List Word) :
    (arguments self n).run (listed (es.map wordsOf) rest) = .ok (es, rest) := by
  induction es generalizing n with
  | nil =>
    cases n with
    | zero => cases hn
    | succ n => rfl
  | cons e es ih =>
    cases n with
    | zero => cases hn
    | succ n =>
      have hes := ih (fun d hd => hstarts d (List.mem_cons_of_mem e hd)) (fun d hd => h d (List.mem_cons_of_mem e hd))
        (Nat.lt_of_succ_lt_succ hn)
      have hends := ends_following (es.map wordsOf) rest
      have hargument := run_argument (h e List.mem_cons_self _ hends) hends
      have hclose := run_accept_of_ne ((hstarts e List.mem_cons_self).head?_ne "]" (following (es.map wordsOf) rest))
      obtain ⟨more, hmore⟩ := run_accept_following (es.map wordsOf) rest
      have hsome : (wordsOf e ++ following (es.map wordsOf) rest).head?.isNone = false := by
        obtain ⟨w, ws, hws, -⟩ := hstarts e List.mem_cons_self
        rw [hws]
        rfl
      rw [List.map_cons, listed_cons, arguments, run_bind (run_peek _), hsome, if_neg Bool.false_ne_true,
        run_bind hclose,
        if_neg Bool.false_ne_true, run_bind hargument, run_bind hmore, run_bind hes]
      rfl

theorem run_primary_name (n : String) (hrest : Ends [",", "]", "|"] rest) :
    (primary self).run (⟨.name, n⟩ :: rest) = .ok (named n, rest) := by
  have hcall := run_accept_of_ne (hrest.head?_ne (m := "(") (by decide))
  have hopen := run_accept_of_ne (hrest.head?_ne (m := "[") (by decide))
  rw [primary, run_bind (run_take _ _), run_bind (run_get _)]
  dsimp only
  rw [run_bind hcall, if_neg Bool.false_ne_true, run_bind hopen]
  rfl

/-- A name with brackets is read as its last part asks for. -/
theorem run_primary_bracket (n : String) (ws : List Word) :
    (primary self).run (⟨.name, n⟩ :: mark "[" :: ws) =
      (if lastSegment n == "Literal" then literalValues (ws.length + 2) >>= fun vs => pure (.mk n [] vs)
        else arguments self (ws.length + 2) >>= fun es => pure (.mk n es [])).run ws := by
  have hcall : (accept "(").run (mark "[" :: ws) = .ok (false, mark "[" :: ws) := run_accept_of_ne (by simp [mark])
  rw [primary, run_bind (run_take _ _), run_bind (run_get _)]
  dsimp only
  rw [run_bind hcall, if_neg Bool.false_ne_true, run_bind (run_accept "[" ws), if_pos rfl]
  rfl

theorem run_moreMembers_nil (n : Nat) (hrest : Ends [",", "]"] rest) :
    (moreMembers self n).run rest = .ok ([], rest) := by
  cases n with
  | zero => rfl
  | succ n =>
    rw [moreMembers]
    exact run_bind (run_accept_of_ne (hrest.head?_ne (m := "|") (by decide)))

theorem run_moreMembers {n : Nat} (hn : es.length ≤ n) (hrest : Ends [",", "]"] rest)
    (h : ∀ e ∈ es, ∀ rest, Ends [",", "]", "|"] rest → (primary self).run (wordsOf e ++ rest) = .ok (e, rest)) :
    (moreMembers self n).run ((es.map wordsOf).flatMap (mark "|" :: ·) ++ rest) = .ok (es, rest) := by
  induction es generalizing n with
  | nil => exact run_moreMembers_nil n hrest
  | cons e es ih =>
    cases n with
    | zero => cases hn
    | succ n =>
      have hes := ih (Nat.le_of_succ_le_succ hn) fun d hd => h d (List.mem_cons_of_mem e hd)
      have he := h e List.mem_cons_self _ (ends_members es hrest)
      rw [List.map_cons, List.flatMap_cons, List.append_assoc, List.cons_append, moreMembers,
        run_bind (run_accept "|" _),
        if_pos rfl, run_bind he, run_bind hes]
      rfl

theorem run_union {d : Nat} {tail : List Word} (he : (primary (union d)).run ws = .ok (e, tail))
    (hes : (moreMembers (union d) tail.length).run tail = .ok (es, rest)) :
    (union (d + 1)).run ws = .ok (if es.isEmpty then e else .mk barName (e :: es) [], rest) := by
  rw [union, run_bind he, run_bind (run_get tail), run_bind hes]
  cases es <;> rfl

end

end Reader

open Reader

variable {e a : TypeExpr} {as es : List TypeExpr}

/-- A type that is read back from its words as a member of a union. Each word lets it nest deeper. -/
def ReadsAsMember (e : TypeExpr) : Prop :=
  ∀ d rest, (wordsOf e).length ≤ d + 1 → Ends [",", "]", "|"] rest →
    (primary (Reader.union d)).run (wordsOf e ++ rest) = .ok (e, rest)

/-- A type that is read back from its words. -/
def ReadsBack (e : TypeExpr) : Prop :=
  ∀ d rest, (wordsOf e).length ≤ d → Ends [",", "]"] rest → (Reader.union d).run (wordsOf e ++ rest) = .ok (e, rest)

theorem ReadsAsMember.readsBack (hstarts : Starts e) (h : ReadsAsMember e) : ReadsBack e := by
  obtain ⟨w, ws, hws, -⟩ := hstarts
  intro d rest hd hrest
  cases d with
  | zero => simp [hws] at hd
  | succ d => exact run_union (h d rest hd (ends_members [] hrest)) (run_moreMembers_nil _ hrest)

theorem readsBack_union (hstarts : Starts a) (hne : es ≠ []) (h : ∀ e ∈ a :: es, ReadsAsMember e) :
    ReadsBack (.mk barName (a :: es) []) := by
  intro d rest hd hrest
  rw [wordsOf_union] at hd ⊢
  have hwords : ∀ e ∈ a :: es, (wordsOf e).length ≤ d := by
    intro e he
    exact Nat.le_trans (length_le_intercalate (mark "|") (List.mem_map_of_mem he)) hd
  rw [List.map_cons, intercalate_cons, List.append_assoc]
  obtain ⟨w, ws, hws, -⟩ := hstarts
  cases d with
  | zero =>
    have hfirst := hwords a List.mem_cons_self
    simp [hws] at hfirst
  | succ d =>
    have hfirst := h a List.mem_cons_self d _ (hwords a List.mem_cons_self) (ends_members es hrest)
    have hcount : es.length ≤ ((es.map wordsOf).flatMap (mark "|" :: ·) ++ rest).length := by
      have hmarks := length_le_flatMap (mark "|") (es.map wordsOf)
      rw [List.length_map] at hmarks
      rw [List.length_append]
      omega
    have hmembers := run_moreMembers hcount hrest fun e he rest hrest =>
      h e (List.mem_cons_of_mem a he) d rest (hwords e (List.mem_cons_of_mem a he)) hrest
    rw [run_union hfirst hmembers, if_neg (by simpa using hne)]

theorem Writable.starts (h : Writable e) : Starts e := by
  induction h with
  | name hn hbase => exact ⟨_, _, wordsOf_named hbase hn, nofun⟩
  | ellipsis => exact ⟨⟨.ellipsis, ellipsisName⟩, [], by decide, by decide⟩
  | generic hn hbase _ _ => exact ⟨_, _, wordsOf_generic hbase hn, nofun⟩
  | @union a b es _ _ ih =>
    obtain ⟨w, ws, hws, hw⟩ := ih a List.mem_cons_self
    refine ⟨w, ws ++ ((b :: es).map wordsOf).flatMap (mark "|" :: ·), ?_, hw⟩
    rw [wordsOf_union, List.map_cons, intercalate_cons, hws, List.cons_append]
  | literal _ => exact ⟨_, _, wordsOf_literal, nofun⟩

theorem readsAsMember_generic {n : String} (hn : isDotted n = true) (hbase : lastSegment n ≠ "Literal")
    (hstarts : ∀ e ∈ a :: as, Starts e) (h : ∀ e ∈ a :: as, ReadsBack e) : ReadsAsMember (.mk n (a :: as) []) := by
  intro d rest hd hrest
  rw [wordsOf_generic hbase hn] at hd ⊢
  -- the name and the brackets are words too, so one level less is deep enough for the arguments
  have hdepth : ∀ e ∈ a :: as, (wordsOf e).length ≤ d := by
    intro e he
    have hlength := length_le_intercalate (mark ",") (List.mem_map_of_mem (f := wordsOf) he)
    simp only [List.length_cons, List.length_append] at hd
    omega
  have hcount := length_le_listed ((a :: as).map wordsOf) rest
  have hargs := run_arguments hstarts (fun e he rest hrest => h e he d rest (hdepth e he) hrest)
    (n := (listed ((a :: as).map wordsOf) rest).length + 2) (by rw [List.length_map] at hcount; omega) rest
  have hwords : (⟨.name, n⟩ :: mark "[" :: ([mark ","].intercalate ((a :: as).map wordsOf) ++ [mark "]"])) ++ rest =
      ⟨.name, n⟩ :: mark "[" :: listed ((a :: as).map wordsOf) rest := by simp [listed]
  rw [hwords, run_primary_bracket, if_neg (by simpa using hbase), run_bind hargs]
  rfl

theorem readsAsMember_literal {vs : List Value} (h : ∀ v ∈ vs, v.Writable) : ReadsAsMember (.mk "Literal" [] vs) := by
  intro d rest hd hrest
  have hcount := length_le_listed (vs.map fun v => [valueWord v]) rest
  have hvalues := run_literalValues h (n := (listed (vs.map fun v => [valueWord v]) rest).length + 2)
    (by rw [List.length_map] at hcount; omega) rest
  have hbase : (lastSegment "Literal" == "Literal") = true := by decide
  have hwords : wordsOf (.mk "Literal" [] vs) ++ rest =
      ⟨.name, "Literal"⟩ :: mark "[" :: listed (vs.map fun v => [valueWord v]) rest := by simp [wordsOf_literal, listed]
  rw [hwords, run_primary_bracket, if_pos hbase, run_bind hvalues]
  rfl

/-- A type is read back from its words, and as a member of a union unless it is one itself. -/
theorem Writable.reads (h : Writable e) : ReadsBack e ∧ (e.name ≠ barName → ReadsAsMember e) := by
  -- only a union is more than a member
  have hboth : ∀ {e}, Writable e → ReadsAsMember e → ReadsBack e ∧ (e.name ≠ barName → ReadsAsMember e) := by
    intro e hw he
    exact ⟨he.readsBack hw.starts, fun _ => he⟩
  induction h with
  | name hn hbase =>
    refine hboth (.name hn hbase) fun d rest _ hrest => ?_
    rw [wordsOf_named hbase hn]
    exact run_primary_name _ hrest
  | ellipsis => exact hboth .ellipsis fun d rest _ hrest => rfl
  | generic hn hbase h ih =>
    exact hboth (.generic hn hbase h)
      (readsAsMember_generic hn hbase (fun e he => (h e he).starts) fun e he => (ih e he).1)
  | @union a b es hbar h ih =>
    refine ⟨readsBack_union (h a List.mem_cons_self).starts (List.cons_ne_nil b es) fun e he =>
      (ih e he).2 (hbar e he), ?_⟩
    exact fun hne => absurd rfl hne
  | literal h => exact hboth (.literal h) (readsAsMember_literal h)

/-- A type that its text writes in full is read back from the text. -/
theorem read_text_of_writable (h : Writable e) : read? e.text = some e := by
  have hwords : words e.text = wordsOf e := h.lexes.words_eq
  have hlength : (wordsOf e).length ≤ e.text.length + 1 := by
    rw [← hwords]
    exact Nat.le_succ_of_le (length_wordsFrom_le _ _)
  have hblank : isBlankText e.text = false := by
    obtain ⟨w, ws, hws, -⟩ := h.starts
    by_contra hblank
    have hnone := words_of_isBlankText (eq_true_of_ne_false hblank)
    rw [hwords, hws] at hnone
    cases hnone
  have hread := h.reads.1 (e.text.length + 1) [] hlength nofun
  rw [List.append_nil] at hread
  rw [read?, hblank, if_neg Bool.false_ne_true, hwords, hread]

/-- A union of a mapping to literal values, some with quotes and brackets in them, and a function of anything to a
union. -/
def mappingOrFunction : TypeExpr :=
  .mk barName [
    .mk "dict" [named "str", .mk "Literal" [] [.str "a], b", .str "it's \"so\"\n", .int (-30), .bool true, .null]] [],
    .mk "typing.Callable" [named ellipsisName, .mk barName [named "int", .mk "Literal" [] []] []] []] []

theorem read_text_mappingOrFunction :
    mappingOrFunction.text =
        "dict[str, Literal['a], b', 'it\\'s \"so\"\\n', -30, True, None]] | typing.Callable[..., int | Literal[]]" ∧
      read? mappingOrFunction.text = some mappingOrFunction := by
  have hnumber : 30 < 10 ^ Source.maxDigits := by decide +kernel
  have hpair : ∀ {a b}, Writable a → Writable b → ∀ e ∈ [a, b], Writable e := by
    intro a b ha hb
    simp [ha, hb]
  have hliteral : Writable (.mk "Literal" [] [.str "a], b", .str "it's \"so\"\n", .int (-30), .bool true, .null]) :=
    .literal (by simp [Value.Writable, hnumber])
  have hreturn : Writable (.mk barName [named "int", .mk "Literal" [] []] []) :=
    .union (by decide) (hpair (.name (by decide) (by decide)) (.literal nofun))
  refine ⟨by decide +kernel, read_text_of_writable (.union (by decide) (hpair ?_ ?_))⟩
  · exact .generic (by decide) (by decide) (hpair (.name (by decide) (by decide)) hliteral)
  · exact .generic (by decide) (by decide) (hpair .ellipsis hreturn)

end TypeExpr

end ApiSchema
