import ApiSchema.Proofs.Extraction
import ApiSchema.Proofs.Family
import ApiSchema.Proofs.Pipes
import Mathlib.Data.List.TakeWhile

/-!
# Two readings of a rule set

A display of rules is read in two ways. The rules that a class declares are listed from its syntax tree
(`declaredByClasses`), and a literal is first decoded to a value, whose entries then are rules (`literalValue`,
`ofLiteral`). A display is here what its literals stand for, and how they are written (`SpellsEntries`).

The readings agree on literals that are written plainly. They differ where parentheses are written, which only decoding
looks into, where an element of a list is blank, which only decoding leaves out, and where a literal goes on after the
end of a line, for which decoding drops the whole entry (`declaredByClasses_ne_decoded`). With distinct keys these are
all differences (`declaredByClasses_eq_decoded`).
-/
namespace ApiSchema.Rule

open Source Text

/-! ## Displays -/

/-- A string literal: its text, whether it stands in parentheses, and the source that is taken for an expression in its
place if decoding does not get to its text. -/
structure Literal where
  text : String
  enclosed : Bool
  hidden? : Option String

/-- The rules of a field: one literal, or a list or tuple of literals. -/
inductive Literals where
  | line (l : Literal)
  | sequence (enclosed : Bool) (hidden? : Option String) (elements : List Literal)

/-- An entry of a display. -/
structure Spelled where
  key : Literal
  rules : Literals

/-- A tree that is another one, maybe in parentheses. A continued line at the start of parentheses hides what is in
them. -/
inductive Encloses (core : Tree) : Tree → Bool → Option String → Prop
  | bare : Encloses core core false none
  | enclosed {role : Option Role} {span : Span} {text : String} {inner : Tree} {gaps : List Tree} {enclosed : Bool}
      {hidden? : Option String} (hgaps : ∀ g ∈ gaps, g.form = .lineContinuation)
      (h : Encloses core inner enclosed hidden?) :
      Encloses core (.node .parenthesized role span text (inner :: gaps)) true hidden?
  | continued {role : Option Role} {span : Span} {text : String} {gap inner : Tree} {gaps gaps' : List Tree}
      {enclosed : Bool} {hidden? : Option String} (hgap : gap.form = .lineContinuation)
      (hgaps : ∀ g ∈ gaps ++ gaps', g.form = .lineContinuation) (h : Encloses core inner enclosed hidden?) :
      Encloses core (.node .parenthesized role span text (gap :: gaps ++ inner :: gaps')) true (some gap.text)

/-- The text of some characters. -/
def textOf (content : List Nat) : String := String.ofList (content.map Char.ofNat)

/-- A literal or several side by side, of which none has bytes. They have no value if a line ends between them. -/
inductive IsText : Tree → String → Option String → Prop
  | single {role : Option Role} {span : Span} {text : String} {children : List Tree} {content : List Nat}
      (h : piece? text = some ⟨false, content⟩) : IsText (.node .string role span text children) (textOf content) none
  | several {role : Option Role} {span : Span} {text : String} {children parts : List Tree} {pieces : List Piece}
      (hparts : children.filter (·.form == .string) = parts)
      (hpieces : parts.mapM (fun c => piece? c.text) = some pieces) (hne : pieces ≠ [])
      (htexts : ∀ p ∈ pieces, p.bytes = false) :
      IsText (.node .concatenatedString role span text children) (textOf (pieces.flatMap (·.content)))
        (if partsJoined (.node .concatenatedString role span text children) parts then none else some text)

inductive Spells : Tree → Literal → Prop
  | intro {core t : Tree} {text : String} {inner? outer? : Option String} {enclosed : Bool}
      (hcore : IsText core text inner?) (h : Encloses core t enclosed outer?) :
      Spells t ⟨text, enclosed, outer?.or inner?⟩

/-- The elements of a list or tuple. -/
inductive SpellsEach : List Tree → List Literal → Prop
  | nil : SpellsEach [] []
  | gap {t : Tree} {ts : List Tree} {ls : List Literal} (h : t.form = .lineContinuation) (rest : SpellsEach ts ls) :
      SpellsEach (t :: ts) ls
  | element {t : Tree} {ts : List Tree} {l : Literal} {ls : List Literal} (h : Spells t l) (rest : SpellsEach ts ls) :
      SpellsEach (t :: ts) (l :: ls)

inductive SpellsRules : Tree → Literals → Prop
  | line {t : Tree} {l : Literal} (h : Spells t l) : SpellsRules t (.line l)
  | sequence {form : Form} {role : Option Role} {span : Span} {text : String} {children : List Tree} {t : Tree}
      {enclosed : Bool} {hidden? : Option String} {ls : List Literal} (hform : isSequence form = true)
      (hchildren : SpellsEach children ls) (h : Encloses (.node form role span text children) t enclosed hidden?) :
      SpellsRules t (.sequence enclosed hidden? ls)

/-- The entries of a display. -/
inductive SpellsEntries : List Tree → List Spelled → Prop
  | nil : SpellsEntries [] []
  | gap {t : Tree} {ts : List Tree} {es : List Spelled} (h : t.form = .lineContinuation) (rest : SpellsEntries ts es) :
      SpellsEntries (t :: ts) es
  | pair {role : Option Role} {span : Span} {text : String} {parts ts : List Tree} {key value : Tree} {e : Spelled}
      {es : List Spelled} (hkey : Tree.inRole? .key parts = some key) (hspelled : Spells key e.key)
      (hvalue : Tree.inRole? .value parts = some value) (hrules : SpellsRules value e.rules)
      (rest : SpellsEntries ts es) : SpellsEntries (.node .pair role span text parts :: ts) (e :: es)

/-! ## Trees and values -/

theorem joinPieces?_texts {pieces : List Piece} (hne : pieces ≠ []) (h : ∀ p ∈ pieces, p.bytes = false) :
    joinPieces? pieces = some (.str (textOf (pieces.flatMap (·.content)))) := by
  cases pieces with
  | nil => exact absurd rfl hne
  | cons p ps =>
    have hp : p.bytes = false := h p List.mem_cons_self
    have hall : (p :: ps).all (·.bytes == p.bytes) = true := List.all_eq_true.2 fun q hq => by simp [h q hq, hp]
    rw [joinPieces?, if_pos hall, hp]
    rfl

/-- What decoding makes of a text. -/
def valueOf (text : String) : Option String → Value
  | none => .str text
  | some source => .expr source

section

variable {t core : Tree} {text : String} {hidden? : Option String}

theorem stringValue?_of_form (hstring : t.form ≠ .string) (hseveral : t.form ≠ .concatenatedString) :
    stringValue? t = none := by
  unfold stringValue? stringLiteral?
  split <;> simp_all

theorem IsText.stringLiteral? (h : IsText t text hidden?) :
    stringLiteral? t = if hidden?.isNone then some (.str text) else none := by
  cases h with
  | single h => simpa [Source.stringLiteral?, h] using joinPieces?_texts (List.cons_ne_nil _ []) (by simp)
  | several hparts hpieces hne htexts =>
    simp only [Source.stringLiteral?, Tree.form_node, Tree.children_node, hparts, hpieces]
    split
    · exact joinPieces?_texts hne htexts
    · rfl

theorem IsText.stringValue? (h : IsText t text hidden?) :
    stringValue? t = if hidden?.isNone then some text else none := by
  unfold Source.stringValue?
  rw [h.stringLiteral?]
  cases hidden? <;> rfl

theorem IsText.literalValue (h : IsText t text hidden?) : literalValue t = .ok (valueOf text hidden?) := by
  have hliteral := h.stringLiteral?
  cases h with
  | single h =>
    rw [Source.literalValue, hliteral]
    rfl
  | several hparts hpieces hne htexts =>
    rw [Source.literalValue, hliteral]
    split <;> rfl

theorem IsText.form (h : IsText t text hidden?) : t.form = .string ∨ t.form = .concatenatedString := by
  cases h with
  | single h => exact .inl rfl
  | several hparts hpieces hne htexts => exact .inr rfl

theorem literalValue_lineContinuation (h : t.form = .lineContinuation) : literalValue t = .ok (.expr t.text) := by
  obtain ⟨form, role, span, text, children⟩ := t
  cases h
  simp [literalValue, pure, Except.pure]

theorem Encloses.literalValue {enclosed : Bool} (h : Encloses core t enclosed hidden?) :
    literalValue t = hidden?.elim (literalValue core) fun source => .ok (.expr source) := by
  induction h with
  | bare => rfl
  | enclosed hgaps h ih => rw [Source.literalValue, ih]
  | continued hgap hgaps h ih =>
    rw [List.cons_append, Source.literalValue, literalValue_lineContinuation hgap, Option.elim_some]

theorem Encloses.eq_core (h : Encloses core t false hidden?) : t = core ∧ hidden? = none := by
  cases h
  exact ⟨rfl, rfl⟩

theorem Encloses.form (h : Encloses core t true hidden?) : t.form = .parenthesized := by
  cases h <;> rfl

end

/-! ## Literals -/

namespace Literal

variable (l : Literal)

def isPlain : Bool := !l.enclosed && l.hidden?.isNone

/-- The rules that are listed of an element. -/
def declared : List Token := if l.isPlain then [.parse l.text] else []

/-- The rule of an element after decoding. -/
def decoded? : Option Token := if l.hidden?.isNone && !isBlankText l.text then some (.parse l.text) else none

/-- The name under which a literal is known after decoding. -/
def shown : String := l.hidden?.getD l.text

variable {l} in
theorem shown_of_isPlain (h : l.isPlain = true) : l.shown = l.text := by
  obtain ⟨-, hread⟩ : l.enclosed = false ∧ l.hidden? = none := by simpa [isPlain] using h
  rw [shown, hread, Option.getD_none]

end Literal

section

variable {t : Tree} {l : Literal}

theorem Spells.stringValue? (h : Spells t l) : stringValue? t = if l.isPlain then some l.text else none := by
  cases h with | @intro core _ text inner? outer? enclosed hcore h =>
  cases enclosed with
  | false =>
    obtain ⟨rfl, rfl⟩ := h.eq_core
    rw [hcore.stringValue?]
    rfl
  | true =>
    have hform := h.form
    rw [stringValue?_of_form (by simp [hform]) (by simp [hform])]
    rfl

theorem Spells.literalValue (h : Spells t l) : literalValue t = .ok (valueOf l.text l.hidden?) := by
  cases h with | @intro core _ text inner? outer? enclosed hcore h =>
  rw [h.literalValue]
  cases outer? with
  | none => exact hcore.literalValue
  | some source => rfl

theorem Spells.form (h : Spells t l) : isSequence t.form = false ∧ (t.form == .call) = false := by
  cases h with | @intro core _ text inner? outer? enclosed hcore h =>
  cases enclosed with
  | false =>
    obtain ⟨rfl, -⟩ := h.eq_core
    rcases hcore.form with hform | hform <;> simp [hform, isSequence]
  | true => simp [h.form, isSequence]

theorem Spells.declaredByElement (h : Spells t l) : declaredByElement t = l.declared.map .token := by
  unfold Rule.declaredByElement Literal.declared
  rw [h.stringValue?]
  cases l.isPlain <;> simp [h.form.2]

theorem declaredByElement_lineContinuation (h : t.form = .lineContinuation) : declaredByElement t = [] := by
  unfold declaredByElement
  rw [stringValue?_of_form (by simp [h]) (by simp [h])]
  simp [h]

end

/-! ## Rules of a field -/

namespace Literals

def hidden? : Literals → Option String
  | .line l => l.hidden?
  | .sequence _ hidden? _ => hidden?

/-- The rules that are listed of a field. -/
def declared : Literals → List Token
  | .line l => if l.isPlain then parseLine l.text else []
  | .sequence true _ _ => []
  | .sequence false _ ls => ls.flatMap Literal.declared

/-- The rules of a field after decoding, unless its value is an expression. -/
def decoded? : Literals → Option (List Token)
  | .line l => if l.hidden?.isNone then some (parseLine l.text) else none
  | .sequence _ hidden? ls => if hidden?.isNone then some (ls.filterMap Literal.decoded?) else none

end Literals

/-- A value that can be the rules of a field, or is an expression. -/
def IsRaw (v : Value) : Prop := v.isExpr = true ∨ ∃ raw, Raw.ofValue v = .ok raw

/-- The rules that a value stands for. -/
def tokensOf? (v : Value) : Option (List Token) := if v.isExpr then none else (Raw.ofValue v).toOption.map parse

section

variable {t : Tree} {ts : List Tree} {ls : List Literal} {rs : Literals}

theorem SpellsEach.declared (h : SpellsEach ts ls) :
    ts.flatMap declaredByElement = (ls.flatMap Literal.declared).map .token := by
  induction h with
  | nil => rfl
  | gap hgap rest ih => rw [List.flatMap_cons, declaredByElement_lineContinuation hgap, ih, List.nil_append]
  | element h rest ih => rw [List.flatMap_cons, List.flatMap_cons, List.map_append, h.declaredByElement, ih]

theorem SpellsRules.declaredBy (h : SpellsRules t rs) : declaredBy t = rs.declared.map .token := by
  cases h with
  | line h =>
    unfold Rule.declaredBy
    rw [h.stringValue?]
    split
    · simp_all [Literals.declared]
    · simp_all [Literals.declared, h.form]
  | @sequence form role span text children _ enclosed hidden? ls hform hchildren h =>
    cases enclosed with
    | false =>
      obtain ⟨rfl, -⟩ := h.eq_core
      unfold Rule.declaredBy
      have hforms : form = .list ∨ form = .tuple := by simpa [isSequence] using hform
      rw [stringValue?_of_form (by rcases hforms with rfl | rfl <;> simp) (by rcases hforms with rfl | rfl <;> simp)]
      simp [hform, hchildren.declared, Literals.declared]
    | true =>
      unfold Rule.declaredBy
      rw [stringValue?_of_form (by simp [h.form]) (by simp [h.form])]
      simp [h.form, isSequence, Literals.declared]

theorem token?_ofValue (l : Literal) : (Element.ofValue (valueOf l.text l.hidden?)).token? = l.decoded? := by
  unfold Literal.decoded?
  cases l.hidden? with
  | none => cases hblank : isBlankText l.text <;> simp [valueOf, Element.ofValue, Element.token?, hblank]
  | some source => rfl

theorem SpellsEach.exists_values (h : SpellsEach ts ls) :
    ∃ vs, literalValues ts = .ok vs ∧ parse (.elements (vs.map .ofValue)) = ls.filterMap Literal.decoded? := by
  induction h with
  | nil => exact ⟨[], by rw [literalValues]; rfl, rfl⟩
  | @gap t ts ls hgap rest ih =>
    obtain ⟨vs, hvs, htokens⟩ := ih
    refine ⟨.expr t.text :: vs, ?_, htokens⟩
    rw [literalValues, literalValue_lineContinuation hgap, hvs]
    rfl
  | @element t ts l ls h rest ih =>
    obtain ⟨vs, hvs, htokens⟩ := ih
    refine ⟨valueOf l.text l.hidden? :: vs, ?_, ?_⟩
    · rw [literalValues, h.literalValue, hvs]
      rfl
    · rw [parse, List.map_cons, List.filterMap_cons, token?_ofValue, List.filterMap_cons, ← htokens]
      rfl

theorem SpellsRules.exists_value (h : SpellsRules t rs) :
    ∃ v, literalValue t = .ok v ∧ IsRaw v ∧ tokensOf? v = rs.decoded? := by
  cases h with
  | @line _ l h =>
    refine ⟨_, h.literalValue, ?_⟩
    obtain ⟨text, enclosed, hidden?⟩ := l
    cases hidden? with
    | none => exact ⟨.inr ⟨_, rfl⟩, rfl⟩
    | some source => exact ⟨.inl rfl, rfl⟩
  | @sequence form role span text children _ enclosed hidden? ls hform hchildren h =>
    obtain ⟨vs, hvs, htokens⟩ := hchildren.exists_values
    cases hidden? with
    | some source => exact ⟨_, h.literalValue, .inl rfl, rfl⟩
    | none =>
      have hvalue := h.literalValue
      have hforms : form = .list ∨ form = .tuple := by simpa [isSequence] using hform
      rcases hforms with rfl | rfl
      · rw [Option.elim_none, literalValue, hvs] at hvalue
        exact ⟨_, hvalue, .inr ⟨_, rfl⟩, congrArg some htokens⟩
      · rw [Option.elim_none, literalValue, hvs] at hvalue
        exact ⟨_, hvalue, .inr ⟨_, rfl⟩, congrArg some htokens⟩

end

/-! ## Entries -/

/-- The rules that are listed of an entry, if its key is. -/
def Spelled.declared? (e : Spelled) : Option (List Token) := if e.key.isPlain then some e.rules.declared else none

/-- What is listed of a display. -/
def listedPairs (es : List Spelled) : List (String × List Token) :=
  es.filterMap fun e => e.declared?.map (e.key.shown, ·)

/-- What a display is decoded to. -/
def decodedPairs (es : List Spelled) : List (String × Option (List Token)) :=
  es.map fun e => (e.key.shown, e.rules.decoded?)

/-- Entries with texts as keys. -/
def keyed (es : Entries Value) : List (Value × Value) := es.map fun e => (.str e.1, e.2)

section

variable {ts : List Tree} {es : List Spelled}

theorem SpellsEntries.declaredIn (h : SpellsEntries ts es) (inherited : List Declaration) (known : List Bound) :
    declaredIn inherited known ts = (listedPairs es).map fun p => (p.1, p.2.map .token) := by
  induction h with
  | nil => rw [Rule.declaredIn]; rfl
  | @gap t ts es hgap rest ih =>
    obtain ⟨form, role, span, text, children⟩ := t
    cases hgap
    rw [Rule.declaredIn, ih] <;> simp
  | @pair role span text parts ts key value e es hkey hspelled hvalue hrules rest ih =>
    rw [Rule.declaredIn, ih]
    simp only [Tree.child?, Tree.children_node, hkey, hvalue, Option.bind_some, hspelled.stringValue?, declaredByValue,
      Option.map_some, Option.getD_some, hrules.declaredBy]
    cases hplain : e.key.isPlain with
    | false => simp [listedPairs, Spelled.declared?, hplain]
    | true => simp [listedPairs, Spelled.declared?, hplain, Literal.shown_of_isPlain hplain]

theorem setEntry_keyed (es : Entries Value) (key : String) (v : Value) :
    Value.setEntry (keyed es) (.str key) v = keyed (Entries.set es key v) := by
  induction es with
  | nil => rfl
  | cons e es ih =>
    obtain ⟨k, w⟩ := e
    have hsame : Value.same (.str k) (.str key) = (k == key) := by simp [Value.same]
    by_cases h : k = key
    · subst h
      simp [keyed, Value.setEntry, Entries.set, hsame]
    · simpa [keyed, Value.setEntry, Entries.set, hsame, h] using ih

theorem literalIn_of_inRole? {r : Role} {parts : List Tree} {t : Tree} (h : Tree.inRole? r parts = some t) :
    literalIn r parts = literalValue t := by
  induction parts with
  | nil => cases h
  | cons part parts ih =>
    rw [literalIn]
    split
    · simp_all [Tree.inRole?]
    · simp_all [Tree.inRole?]

theorem SpellsEntries.exists_pairs (h : SpellsEntries ts es) :
    ∃ pairs : List (String × Value),
      (∀ known, literalEntries (keyed known) ts = .ok (keyed (Entries.setAll known pairs))) ∧
        (∀ p ∈ pairs, IsRaw p.2) ∧ pairs.map (fun p => (p.1, tokensOf? p.2)) = decodedPairs es := by
  induction h with
  | nil => exact ⟨[], fun known => by rw [literalEntries]; rfl, by simp, rfl⟩
  | @gap t ts es hgap rest ih =>
    obtain ⟨pairs, hpairs, hraw, htokens⟩ := ih
    refine ⟨pairs, fun known => ?_, hraw, htokens⟩
    obtain ⟨form, role, span, text, children⟩ := t
    cases hgap
    rw [literalEntries, hpairs]
    simp
  | @pair role span text parts ts key value e es hkey hspelled hvalue hrules rest ih =>
    obtain ⟨pairs, hpairs, hraw, htokens⟩ := ih
    obtain ⟨v, hv, hrawv, htokensv⟩ := hrules.exists_value
    refine ⟨(e.key.shown, v) :: pairs, fun known => ?_, ?_, ?_⟩
    · rw [literalEntries, literalIn_of_inRole? hkey, literalIn_of_inRole? hvalue, hspelled.literalValue, hv]
      have hshown : keyOf (valueOf e.key.text e.key.hidden?) = .str e.key.shown := by
        unfold Literal.shown
        cases e.key.hidden? <;> rfl
      simp only [bind, Except.bind, hshown]
      simp [Value.hashable, setEntry_keyed, hpairs, Entries.setAll]
    · exact List.forall_mem_cons.2 ⟨hrawv, hraw⟩
    · rw [List.map_cons, htokens, htokensv]
      rfl

/-- The rules of a decoded display are those of its entries, but for the expressions. -/
theorem ofLiteral_keyed {es : Entries Value} (hraw : ∀ e ∈ es, IsRaw e.2) :
    ofLiteral (keyed es) = .ok (Entries.ofPairs (es.filterMap fun e => (tokensOf? e.2).map (e.1, ·))) := by
  unfold ofLiteral
  suffices hfold : ∀ acc : RuleSet, (keyed es).foldlM (fun (acc : RuleSet) e =>
      if e.2.isExpr then return acc else do
        let tokens := parse (← Raw.ofValue e.2)
        return Entries.set acc (← e.1.spell) tokens) acc =
      Except.ok (Entries.setAll acc (es.filterMap fun e => (tokensOf? e.2).map (e.1, ·))) from hfold []
  induction es with
  | nil => exact fun acc => rfl
  | cons e es ih =>
    intro acc
    obtain ⟨he, hes⟩ := List.forall_mem_cons.1 hraw
    cases hexpr : e.2.isExpr with
    | true => simpa [keyed, hexpr, tokensOf?] using ih hes acc
    | false =>
      obtain ⟨raw, hraw⟩ := he.resolve_left (by simp [hexpr])
      have hrest := ih hes (Entries.set acc e.1 (parse raw))
      simpa [keyed, hexpr, tokensOf?, hraw, Except.toOption, Entries.setAll, bind, Except.bind, pure,
        Except.pure] using hrest

end

/-! ## Agreement -/

theorem strip_of_isBlankText {s : String} (h : isBlankText s = true) : strip s = "" := by
  have hdrop : s.toList.dropWhile isBlank = [] := List.dropWhile_eq_nil_iff.2 (List.all_eq_true.1 h)
  simp [strip, stripOf, hdrop, dropRightWhile]

theorem split_ne_nil (sep : Char) (s : String) : split sep s ≠ [] := by
  simp [split, splitList_eq_splitOn, List.splitOn, List.splitOnP_ne_nil]

/-- Only a blank text is a rule without a name and parameters. -/
theorem Token.parse_eq_iff (s : String) : Token.parse s = { name := "" } ↔ isBlankText s = true := by
  constructor
  · intro h
    by_contra hblank
    obtain ⟨c, hc, hcb⟩ := List.all_eq_false.1 (Bool.eq_false_iff.2 hblank)
    by_cases hcolon : ':' ∈ (strip s).toList
    · obtain ⟨before, after, hs, hbefore⟩ := List.eq_append_cons_of_mem hcolon
      have hcut : cut ':' (strip s) = (String.ofList before, some (String.ofList after)) := by
        simp [cut, hs, cutList_append_cons hbefore]
      rw [Token.parse, hcut] at h
      simp only at h
      split at h
      · simp at h
      · simp [split_ne_nil] at h
    · have hcut : cut ':' (strip s) = (strip s, none) := by simp [cut, cutList_of_not_mem hcolon]
      rw [Token.parse, hcut] at h
      have hmem : c ∈ (strip (strip s)).toList := by
        have hcb : isBlank c = false := by simpa using hcb
        rwa [mem_strip hcb, mem_strip hcb]
      have hlower := lowerFrom_ne_nil [] (List.ne_nil_of_mem hmem)
      simp [lower, hlower] at h
  · intro h
    unfold Token.parse
    rw [strip_of_isBlankText h]
    decide +kernel

theorem filterMap_decoded? (ls : List Literal) : ls.filterMap Literal.decoded? =
    (ls.filter fun l => l.hidden?.isNone && !isBlankText l.text).map fun l => Token.parse l.text := by
  induction ls with
  | nil => rfl
  | cons l ls ih => cases h : l.hidden?.isNone && !isBlankText l.text <;> simp [Literal.decoded?, h, ih]

theorem flatMap_declared (ls : List Literal) :
    ls.flatMap Literal.declared = (ls.filter Literal.isPlain).map fun l => Token.parse l.text := by
  induction ls with
  | nil => rfl
  | cons l ls ih => cases h : l.isPlain <;> simp [Literal.declared, h, ih]

/-- A stricter condition leaves less of a list, unless both are the same on it. -/
theorem filter_eq_of_map_eq {α β : Type} {xs : List α} {p q : α → Bool} {f : α → β}
    (hpq : ∀ x ∈ xs, p x = true → q x = true) (h : (xs.filter q).map f = (xs.filter p).map f) :
    ∀ x ∈ xs, q x = p x := by
  have hfilter : (xs.filter q).filter p = xs.filter p := by
    rw [List.filter_filter]
    refine List.filter_congr fun x hx => ?_
    cases hp : p x with
    | false => rfl
    | true => simp [hpq x hx hp]
  have hlength : (xs.filter p).length = (xs.filter q).length := by simpa using (congrArg List.length h).symm
  have hsame : xs.filter p = xs.filter q := (hfilter ▸ List.filter_sublist).eq_of_length hlength
  intro x hx
  rw [Bool.eq_iff_iff]
  refine ⟨fun hq => ?_, hpq x hx⟩
  exact (List.mem_filter.1 (hsame ▸ List.mem_filter.2 ⟨hx, hq⟩)).2

/-- The elements of a list are read alike if and only if the blank ones are those in parentheses. -/
theorem elements_eq_iff (ls : List Literal) : ls.filterMap Literal.decoded? = ls.flatMap Literal.declared ↔
    ∀ l ∈ ls, l.hidden? = none → isBlankText l.text = l.enclosed := by
  have hpoint : ∀ l : Literal, (l.hidden? = none → isBlankText l.text = l.enclosed) ↔
      (l.hidden?.isNone && !isBlankText l.text) = l.isPlain := by
    intro l
    unfold Literal.isPlain
    cases l.hidden? <;> cases l.enclosed <;> simp
  simp only [hpoint, filterMap_decoded?, flatMap_declared]
  refine ⟨fun heq => filter_eq_of_map_eq (fun l hl hplain => ?_) heq, fun h => by rw [List.filter_congr h]⟩
  -- A blank element would be listed as a rule that only blank texts stand for, and those are not decoded.
  have hlisted : Token.parse l.text ∈ (ls.filter Literal.isPlain).map fun l => Token.parse l.text :=
    List.mem_map_of_mem (List.mem_filter.2 ⟨hl, hplain⟩)
  obtain ⟨l', hl', hparse⟩ := List.mem_map.1 (heq ▸ hlisted)
  obtain ⟨-, hnot⟩ : l'.hidden?.isNone = true ∧ isBlankText l'.text = false := by simpa using (List.mem_filter.1 hl').2
  have hblank : isBlankText l.text = false := by
    rw [Bool.eq_false_iff, ne_eq, ← Token.parse_eq_iff, ← hparse, Token.parse_eq_iff, hnot]
    simp
  have hread : l.hidden?.isNone = true := by simp_all [Literal.isPlain]
  simp [hread, hblank]

/-- Rules that are read alike: one text that can be decoded and stands outside of parentheses or says nothing, or a
sequence whose blank elements are those in parentheses. -/
def Literals.Agree : Literals → Prop
  | .line l => l.hidden? = none ∧ (l.enclosed = true → parseLine l.text = [])
  | .sequence enclosed hidden? ls =>
    hidden? = none ∧ ∀ l ∈ ls, l.hidden? = none → isBlankText l.text = (enclosed || l.enclosed)

instance : DecidablePred Literals.Agree
  | .line _ => inferInstanceAs (Decidable (_ ∧ (_ → _)))
  | .sequence _ _ ls => inferInstanceAs (Decidable (_ ∧ ∀ l ∈ ls, _ → _))

theorem Literals.decoded?_eq_none_iff (rs : Literals) : rs.decoded? = none ↔ rs.hidden?.isSome = true := by
  cases rs <;> simp [decoded?, hidden?, Option.isSome_iff_ne_none]

theorem Literals.agree_iff (rs : Literals) : rs.Agree ↔ rs.decoded? = some rs.declared := by
  cases rs with
  | line l =>
    obtain ⟨text, enclosed, hidden?⟩ := l
    cases hidden? <;> cases enclosed <;> simp [Agree, decoded?, declared, Literal.isPlain]
  | sequence enclosed hidden? ls =>
    cases hidden? with
    | some source => simp [Agree, decoded?]
    | none =>
      cases enclosed with
      | false => simp [Agree, decoded?, declared, elements_eq_iff]
      | true => simp [Agree, decoded?, declared, Literal.decoded?]

/-- The rules that are listed of a display. -/
def listedRules (es : List Spelled) : RuleSet := Entries.ofPairs (listedPairs es)

/-- The rules of a display after decoding. -/
def decodedRules (es : List Spelled) : RuleSet :=
  Entries.ofPairs ((Entries.ofPairs (decodedPairs es)).filterMap fun p => p.2.map (p.1, ·))

/-- An entry that is read alike: its key is plain and its rules agree, or neither reading has it. -/
def Spelled.Agrees (e : Spelled) : Prop := if e.key.isPlain then e.rules.Agree else e.rules.hidden?.isSome = true

theorem Spelled.agrees_iff (e : Spelled) : e.Agrees ↔ e.declared? = e.rules.decoded? := by
  rw [eq_comm, Agrees, declared?]
  cases e.key.isPlain with
  | false => simp [Literals.decoded?_eq_none_iff]
  | true => simp [Literals.agree_iff]

section

variable {es : List Spelled}

/-- Entries with plain keys that are read alike make up one rule set. -/
theorem listedRules_eq_of_agree (h : ∀ e ∈ es, e.key.isPlain = true ∧ e.rules.Agree) :
    listedRules es = decodedRules es := by
  have hdecoded : decodedPairs es = (listedPairs es).map fun p => (p.1, some p.2) := by
    unfold decodedPairs listedPairs
    induction es with
    | nil => rfl
    | cons e es ih =>
      obtain ⟨⟨hplain, hagree⟩, hes⟩ := List.forall_mem_cons.1 h
      simp [ih hes, Spelled.declared?, hplain, (Literals.agree_iff _).1 hagree]
  rw [listedRules, decodedRules, hdecoded, Entries.ofPairs_map, List.filterMap_map]
  simp [Entries.ofPairs_of_nodup (Entries.nodup_keys_ofPairs (listedPairs es))]

/-- Under distinct keys the rule sets are equal if and only if every entry is read alike. -/
theorem listedRules_eq_iff (hkeys : (es.map (·.key.shown)).Nodup) :
    listedRules es = decodedRules es ↔ ∀ e ∈ es, e.Agrees := by
  have hdecoded : Entries.ofPairs (decodedPairs es) = decodedPairs es :=
    Entries.ofPairs_of_nodup (by simpa [decodedPairs, Entries.keys, Function.comp_def] using hkeys)
  have hfilled : ∀ f : Spelled → Option (List Token),
      Entries.ofPairs (es.filterMap fun e => (f e).map (e.key.shown, ·)) =
        es.filterMap fun e => (f e).map (e.key.shown, ·) :=
    fun f => Entries.ofPairs_of_nodup (hkeys.sublist (Entries.keys_filterMap_sublist es f))
  rw [listedRules, decodedRules, hdecoded, decodedPairs, List.filterMap_map, listedPairs, hfilled]
  simp only [Function.comp_def, hfilled, Entries.filterMap_eq_iff hkeys, Spelled.agrees_iff]

end

/-- A display of string literals in a class is read in both ways. Both give the same rules if every key is plain and the
rules of every entry agree. If the keys are distinct, they do so exactly if every entry is read alike. -/
theorem declaredByClasses_eq_decoded {m : Type → Type} [Monad m] [LawfulMonad m] (resolve : String → m String)
    {method : String} {c : Source.Class} (ancestors : List Source.Class) {t : Tree} {es : List Spelled}
    (hmethod : c.methods.get? method = none) (hassigned : c.assignments.get? method = some t)
    (hform : t.form = .dictionary) (hes : SpellsEntries t.children es) :
    ∃ declared listed values decoded, declaredByClasses method (c :: ancestors) = some declared ∧
      resolveAll resolve declared = pure listed ∧ literalValue t = .ok (.dict values) ∧ ofLiteral values = .ok decoded ∧
      ((∀ e ∈ es, e.key.isPlain = true ∧ e.rules.Agree) → listed = decoded) ∧
      ((es.map (·.key.shown)).Nodup → (listed = decoded ↔ ∀ e ∈ es, e.Agrees)) := by
  obtain ⟨pairs, hpairs, hraw, htokens⟩ := hes.exists_pairs
  have hdeclared : declaredByClasses method (c :: ancestors) =
      some ((listedPairs es).map fun p => (p.1, p.2.map .token)) := by
    simp [declaredByClasses, hmethod, hassigned, hform, hes.declaredIn]
  have hvalue : literalValue t = .ok (.dict (keyed (Entries.ofPairs pairs))) := by
    obtain ⟨form, role, span, text, children⟩ := t
    cases hform
    have hentries : literalEntries [] children = .ok (keyed (Entries.ofPairs pairs)) := hpairs []
    rw [literalValue, hentries]
    rfl
  have hdecoded : ofLiteral (keyed (Entries.ofPairs pairs)) = .ok (decodedRules es) := by
    rw [ofLiteral_keyed, decodedRules, ← htokens, Entries.ofPairs_map, List.filterMap_map]
    · rfl
    · intro e he
      obtain ⟨p, hp, hvalue⟩ | hnil := Entries.mem_setAll he
      · exact hvalue ▸ hraw p hp
      · cases hnil
  exact ⟨_, listedRules es, _, _, hdeclared, resolveAll_tokens resolve _, hvalue, hdecoded, listedRules_eq_of_agree,
    listedRules_eq_iff⟩

/-! ## Five displays -/

open Building (Written whole leaf inRow textsOf display)

/-- A class that assigns a display to its rules. -/
def assigning (items : List Written) : Source.Class where
  name := "R"
  qualifiedName := "m.R"
  bases := []
  lineStart := 1
  lineEnd := 1
  assignments := [("rules", display (some .right) items 0)]

def quoted (role : Option Role) (s : String) : Written := leaf .string role ("'" ++ s ++ "'")

def inParentheses (role : Option Role) (inner : Written) : Written :=
  whole .parenthesized role ("(" ++ (inner 0).text ++ ")") fun start => [inner (start + 1)]

def listOf (items : List Written) : Written :=
  whole .list (some .value) ("[" ++ textsOf ", " 2 items ++ "]") fun start => inRow 2 items (start + 1)

/-- Two literals on two lines. -/
def onTwoLines (s t : String) : Written :=
  whole .concatenatedString (some .value) ("'" ++ s ++ "'\n'" ++ t ++ "'") fun start =>
    [quoted none s start, quoted none t (start + s.length + 3)]

/-- A key with its rules. -/
def field (key value : Written) : Written :=
  whole .pair none ((key 0).text ++ ": " ++ (value 0).text) fun start =>
    [key start, value (start + (key 0).text.length + 2)]

section

variable {role : Option Role} {start : Nat}

/-- The text between quotes that needs no other spelling. -/
def IsQuotable (s : String) : Prop :=
  (piece? ("'" ++ s ++ "'")).map (fun p => (p.bytes, p.content)) = some (false, s.toList.map Char.toNat)

instance (s : String) : Decidable (IsQuotable s) := inferInstanceAs (Decidable (_ = _))

theorem textOf_toNat (s : String) : textOf (s.toList.map Char.toNat) = s := by
  simp [textOf, Function.comp_def]

theorem piece?_of_isQuotable {s : String} (h : IsQuotable s) :
    piece? ("'" ++ s ++ "'") = some ⟨false, s.toList.map Char.toNat⟩ := by
  obtain ⟨⟨bytes, content⟩, hpiece, hparts⟩ := Option.map_eq_some_iff.1 h
  cases hparts
  exact hpiece

theorem spells_quoted {s : String} (h : IsQuotable s) : Spells (quoted role s start) ⟨s, false, none⟩ := by
  have htext : IsText (quoted role s start) (textOf (s.toList.map Char.toNat)) none := .single (piece?_of_isQuotable h)
  rw [textOf_toNat] at htext
  exact .intro htext .bare

theorem spells_onTwoLines {s t : String} (hs : IsQuotable s) (ht : IsQuotable t)
    (hbroken : partsJoined (onTwoLines s t start) (onTwoLines s t start).children = false) :
    Spells (onTwoLines s t start) ⟨s ++ t, false, some (onTwoLines s t start).text⟩ := by
  have hpieces : (onTwoLines s t start).children.mapM (fun c => piece? c.text) =
      some [⟨false, s.toList.map Char.toNat⟩, ⟨false, t.toList.map Char.toNat⟩] := by
    simp [onTwoLines, quoted, leaf, whole, piece?_of_isQuotable hs, piece?_of_isQuotable ht]
  have htext : IsText (onTwoLines s t start) (textOf ((s ++ t).toList.map Char.toNat))
      (if partsJoined (onTwoLines s t start) (onTwoLines s t start).children then none
        else some (onTwoLines s t start).text) := by
    have hparts : (onTwoLines s t start).children.filter (·.form == .string) = (onTwoLines s t start).children := rfl
    have hcontent : (s ++ t).toList.map Char.toNat =
        [Piece.mk false (s.toList.map Char.toNat), ⟨false, t.toList.map Char.toNat⟩].flatMap Piece.content := by simp
    rw [hcontent]
    exact .several hparts hpieces (by simp) (by simp)
  rw [hbroken, textOf_toNat] at htext
  exact .intro htext .bare

theorem spells_inParentheses {inner : Written} {l : Literal} (h : Spells (inner (start + 1)) l) :
    Spells (inParentheses role inner start) ⟨l.text, true, l.hidden?⟩ := by
  cases h with | intro hcore h => exact .intro hcore (.enclosed (by simp) h)

theorem spellsEntries_field {key value : Written} {items : List Written} {e : Spelled} {es : List Spelled}
    (hkey : Tree.inRole? .key ((field key value) start).children = some (key start))
    (hspelled : Spells (key start) e.key)
    (hvalue : Tree.inRole? .value ((field key value) start).children = some (value (start + (key 0).text.length + 2)))
    (hrules : SpellsRules (value (start + (key 0).text.length + 2)) e.rules)
    (rest : SpellsEntries (inRow 2 items ((field key value start).span.stop + 2)) es) :
    SpellsEntries (inRow 2 (field key value :: items) start) (e :: es) :=
  .pair hkey hspelled hvalue hrules rest

end

/-- A key that is written twice, a list with a blank element in parentheses, and rules between pipes. -/
def plainRules : List Written := [
  field (quoted (some .key) "email") (quoted (some .value) "required|email"),
  field (quoted (some .key) "tags")
    (listOf [quoted none "array", inParentheses none (quoted none " "), quoted none "max:5"]),
  field (quoted (some .key) "email") (quoted (some .value) "nullable")]

def plainEntries : List Spelled := [
  ⟨⟨"email", false, none⟩, .line ⟨"required|email", false, none⟩⟩,
  ⟨⟨"tags", false, none⟩, .sequence false none [⟨"array", false, none⟩, ⟨" ", true, none⟩, ⟨"max:5", false, none⟩]⟩,
  ⟨⟨"email", false, none⟩, .line ⟨"nullable", false, none⟩⟩]

theorem declaredByClasses_eq_decoded_plainRules :
    SpellsEntries (display (some .right) plainRules 0).children plainEntries ∧
      (∀ e ∈ plainEntries, e.key.isPlain = true ∧ e.rules.Agree) ∧
      ∃ declared listed values decoded, declaredByClasses "rules" [assigning plainRules] = some declared ∧
        resolveAll (m := Id) pure declared = pure listed ∧
        literalValue (display (some .right) plainRules 0) = .ok (.dict values) ∧ ofLiteral values = .ok decoded ∧
        listed = decoded := by
  have hspells : SpellsEntries (display (some .right) plainRules 0).children plainEntries := by
    refine spellsEntries_field rfl (spells_quoted (by decide +kernel)) rfl
      (.line (spells_quoted (by decide +kernel))) ?_
    refine spellsEntries_field rfl (spells_quoted (by decide +kernel)) rfl (.sequence rfl ?tags .bare) ?_
    case tags =>
      exact .element (spells_quoted (by decide +kernel))
        (.element (spells_inParentheses (spells_quoted (by decide +kernel)))
          (.element (spells_quoted (by decide +kernel)) .nil))
    exact spellsEntries_field rfl (spells_quoted (by decide +kernel)) rfl
      (.line (spells_quoted (by decide +kernel))) .nil
  have hagree : ∀ e ∈ plainEntries, e.key.isPlain = true ∧ e.rules.Agree := by decide +kernel
  have hmethod : (assigning plainRules).methods.get? "rules" = none := rfl
  have hassigned : (assigning plainRules).assignments.get? "rules" = some (display (some .right) plainRules 0) := rfl
  obtain ⟨declared, listed, values, decoded, hdeclared, hlisted, hvalues, hdecoded, hequal, -⟩ :=
    declaredByClasses_eq_decoded (m := Id) pure [] hmethod hassigned rfl hspells
  exact ⟨hspells, hagree, declared, listed, values, decoded, hdeclared, hlisted, hvalues, hdecoded, hequal hagree⟩

/-- The rules of the class that assigns a display. -/
def listedOf (items : List Written) : Option RuleSet :=
  (declaredByClasses "rules" [assigning items]).map fun declared => resolveAll (m := Id) pure declared

/-- The rules of a display that is decoded. -/
def decodedOf (items : List Written) : Option RuleSet :=
  match literalValue (display (some .right) items 0) with
  | .ok (.dict values) => (ofLiteral values).toOption
  | _ => none

def enclosedRules : List Written :=
  [field (quoted (some .key) "a") (inParentheses (some .value) (quoted none "required"))]

def enclosedKey : List Written :=
  [field (inParentheses (some .key) (quoted none "a")) (quoted (some .value) "required")]

def blankElement : List Written :=
  [field (quoted (some .key) "a") (listOf [quoted none "", quoted none "required"])]

def brokenRules : List Written := [field (quoted (some .key) "a") (onTwoLines "req" "uired")]

/-- Only decoding looks into parentheses, only decoding leaves out a blank element, and only listing keeps a key whose
rules go on after the end of a line. -/
theorem declaredByClasses_ne_decoded :
    (SpellsEntries (inRow 2 enclosedRules 1) [⟨⟨"a", false, none⟩, .line ⟨"required", true, none⟩⟩] ∧
      listedOf enclosedRules = some [("a", [])] ∧
      decodedOf enclosedRules = some [("a", [{ name := "required" }])]) ∧
    (SpellsEntries (inRow 2 enclosedKey 1) [⟨⟨"a", true, none⟩, .line ⟨"required", false, none⟩⟩] ∧
      listedOf enclosedKey = some [] ∧ decodedOf enclosedKey = some [("a", [{ name := "required" }])]) ∧
    (SpellsEntries (inRow 2 blankElement 1)
        [⟨⟨"a", false, none⟩, .sequence false none [⟨"", false, none⟩, ⟨"required", false, none⟩]⟩] ∧
      listedOf blankElement = some [("a", [{ name := "" }, { name := "required" }])] ∧
      decodedOf blankElement = some [("a", [{ name := "required" }])]) ∧
    (SpellsEntries (inRow 2 brokenRules 1) [⟨⟨"a", false, none⟩, .line ⟨"required", false, some "'req'\n'uired'"⟩⟩] ∧
      listedOf brokenRules = some [("a", [])] ∧ decodedOf brokenRules = some []) := by
  refine ⟨⟨?_, by decide +kernel, by decide +kernel⟩, ⟨?_, by decide +kernel, by decide +kernel⟩,
    ⟨?_, by decide +kernel, by decide +kernel⟩, ?_, by decide +kernel, by decide +kernel⟩
  · exact spellsEntries_field rfl (spells_quoted (by decide +kernel)) rfl
      (.line (spells_inParentheses (spells_quoted (by decide +kernel)))) .nil
  · exact spellsEntries_field rfl (spells_inParentheses (spells_quoted (by decide +kernel))) rfl
      (.line (spells_quoted (by decide +kernel))) .nil
  · exact spellsEntries_field rfl (spells_quoted (by decide +kernel)) rfl
      (.sequence rfl (.element (spells_quoted (by decide +kernel)) (.element (spells_quoted (by decide +kernel)) .nil))
        .bare) .nil
  · exact spellsEntries_field rfl (spells_quoted (by decide +kernel)) rfl
      (.line (spells_onTwoLines (by decide +kernel) (by decide +kernel) (by decide +kernel))) .nil

end ApiSchema.Rule
