import ApiSchema.Proofs.Building
import ApiSchema.Proofs.Faults
import ApiSchema.Proofs.Values

/-!
# Shapes of dictionaries that a body builds

The shape of a body that builds a dictionary in a variable is read off its parts without running them: the fields are
those of the first display that the variable is bound to, then those of every change, whatever branch it is in, and the
last mention of a key decides on its field (`Shows`, `shapeIn_acts`).

So a later binding of the variable is not seen (`fieldsIn_replaced`). As to keys that no later binding brings in or
takes away, the fields are the keys of the dictionary (`shapeIn_built`). A key with an entry in one branch alone counts
as required, and one that is mentioned last under a condition does not (`fieldsIn_uneven`). For the other keys, which
are `Regular`, to be required means to be there on all paths (`shapeIn_required`).
-/
namespace ApiSchema

/-! ## Mentions of a key -/

namespace Building

open Entries

variable {α κ : Type} {truth : κ → Bool} {k : String}

/-- Where a display mentions a key, in order: as an entry (`true`), or among entries that are there under a
condition. -/
def Display.mentions (k : String) : Display α κ → List Bool
  | .nil => []
  | .pair key _ d => if key = k then true :: d.mentions k else d.mentions k
  | .takeOver d => d.mentions k
  | .optional _ entries d => (entries.mentions k).map (fun _ => false) ++ d.mentions k

/-- The values of a key that stand under no condition. -/
def Display.values (k : String) : Display α κ → List α
  | .nil => []
  | .pair key x d => if key = k then x :: d.values k else d.values k
  | .takeOver d | .optional _ _ d => d.values k

def Change.mentions (k : String) : Change α κ → List Bool
  | .put key _ => if key = k then [true] else []
  | .merge d => d.mentions k

def Change.values (k : String) : Change α κ → List α
  | .put key x => if key = k then [x] else []
  | .merge d => d.values k

variable {d : Display α κ} {c : Change α κ} {held : Entries α}

theorem isSome_last? (pairs : List (String × α)) (k : String) : (last? pairs k).isSome = (get? pairs k).isSome := by
  rw [Bool.eq_iff_iff, last?, get?_isSome_iff, get?_isSome_iff]
  simp [keys]

theorem isSome_pairs (h : true ∈ d.mentions k) (held : List (String × α)) :
    (last? (d.pairs truth held) k).isSome = true := by
  induction d with
  | nil => cases h
  | pair key x d ih =>
    rw [Display.pairs, last?_cons]
    by_cases hk : key = k
    · simp [hk]
    · simp only [Display.mentions, hk, if_false] at h
      simp [ih h]
  | takeOver d ih =>
    rw [Display.pairs, last?_append]
    simp [ih h]
  | optional c entries d ihe ih =>
    rw [Display.pairs, last?_append]
    have hd : true ∈ d.mentions k := by simpa [Display.mentions] using h
    simp [ih hd]

/-- While no condition holds, there are the entries and what is taken over. -/
theorem mention_of_pairs {held : List (String × α)} (h : (last? (d.pairs (fun _ => false) held) k).isSome = true) :
    true ∈ d.mentions k ∨ (last? held k).isSome = true := by
  induction d with
  | nil => cases h
  | pair key x d ih =>
    rw [Display.pairs, last?_cons] at h
    by_cases hk : key = k
    · simp [Display.mentions, hk]
    · simp only [hk, if_false, Option.or_none] at h
      simpa [Display.mentions, hk] using ih h
  | takeOver d ih =>
    rw [Display.pairs, last?_append, Option.isSome_or, Bool.or_eq_true] at h
    rcases h with h | h
    · exact ih h
    · exact .inr h
  | optional c entries d ihe ih =>
    rw [Display.pairs] at h
    rcases ih (by simpa using h) with h | h
    · exact .inl (List.mem_append_right _ h)
    · exact .inr h

theorem isSome_bind {d : Display α κ} (h : true ∈ d.mentions k) (held : Entries α) :
    (get? (ofPairs (d.pairs truth held)) k).isSome = true := by
  rw [get?_ofPairs]
  exact isSome_pairs h held

theorem Change.isSome_run_of_held (c : Change α κ) (h : (get? held k).isSome = true) :
    (get? (c.run truth held) k).isSome = true := by
  cases c with
  | put key x =>
    rw [Change.run, get?_set]
    split
    · rfl
    · exact h
  | merge d =>
    rw [Change.run, get?_setAll]
    simp [h]

theorem Change.isSome_run (h : true ∈ c.mentions k) (held : Entries α) : (get? (c.run truth held) k).isSome = true := by
  cases c with
  | put key x =>
    rw [Change.run, get?_set]
    by_cases hk : key = k
    · simp [hk]
    · simp [Change.mentions, hk] at h
  | merge d =>
    rw [Change.run, get?_setAll, Option.isSome_or, isSome_pairs h]
    rfl

theorem Change.mention_of_run (h : (get? (c.run (fun _ => false) held) k).isSome = true) :
    true ∈ c.mentions k ∨ (get? held k).isSome = true := by
  cases c with
  | put key x =>
    rw [Change.run, get?_set] at h
    by_cases hk : key = k
    · simp [Change.mentions, hk]
    · simp only [hk, if_false] at h
      exact .inr h
  | merge d =>
    rw [Change.run, get?_setAll, Option.isSome_or, Bool.or_eq_true] at h
    rcases h with h | h
    · rw [← isSome_last? held]
      exact mention_of_pairs h
    · exact .inr h

/-! ## Branches -/

/-- Where a script mentions a key, whatever branch it is in. -/
def Script.mentions (k : String) (s : Script α κ) : List Bool := s.changes.flatMap (Change.mentions k)

/-- Whether a script has an entry for a key. -/
def Script.enters (k : String) (s : Script α κ) : Bool := (s.mentions k).contains true

/-- Whether a script has an entry for a key outside of all branches. -/
def Script.entersOutside (k : String) : Script α κ → Bool
  | .done => false
  | .change c rest => (c.mentions k).contains true || rest.entersOutside k
  | .branch _ _ _ rest => rest.entersOutside k

/-- Whether the branches of a script have entries for a key on both sides or on none, as far as the script has no entry
for it outside of them. -/
def Script.isEven (k : String) : Script α κ → Bool
  | .done => true
  | .change c rest => (c.mentions k).contains true || rest.isEven k
  | .branch _ yes no rest =>
    rest.entersOutside k || (yes.enters k == no.enters k && yes.isEven k && no.isEven k && rest.isEven k)

variable {s : Script α κ}

theorem Script.isSome_run_of_held (s : Script α κ) (h : (get? held k).isSome = true) :
    (get? (s.run truth held) k).isSome = true := by
  induction s generalizing held with
  | done => exact h
  | change c rest ih => exact ih (c.isSome_run_of_held h)
  | branch c yes no rest ihyes ihno ih =>
    rw [Script.run]
    split
    · exact ih (ihyes h)
    · exact ih (ihno h)

theorem Script.isSome_run_of_outside (h : s.entersOutside k = true) (held : Entries α) :
    (get? (s.run truth held) k).isSome = true := by
  induction s generalizing held with
  | done => cases h
  | change c rest ih =>
    rcases Bool.or_eq_true _ _ ▸ h with h | h
    · exact rest.isSome_run_of_held (Change.isSome_run (List.contains_iff_mem.1 h) held)
    · exact ih h _
  | branch c yes no rest ihyes ihno ih => exact ih h _

theorem Script.enters_branch {c : κ} {yes no rest : Script α κ} :
    (Script.branch c yes no rest).enters k = (yes.enters k || no.enters k || rest.enters k) := by
  simp [Script.enters, Script.mentions, Script.changes, Bool.or_assoc]

theorem Script.enters_change {c : Change α κ} {rest : Script α κ} :
    (Script.change c rest).enters k = ((c.mentions k).contains true || rest.enters k) := by
  simp [Script.enters, Script.mentions, Script.changes]

/-- With even branches, a key with an entry is there on all paths. -/
theorem Script.isSome_run_of_isEven (heven : s.isEven k = true) (h : s.enters k = true) (held : Entries α) :
    (get? (s.run truth held) k).isSome = true := by
  induction s generalizing held with
  | done => cases h
  | change c rest ih =>
    rw [Script.enters_change] at h
    rw [Script.isEven] at heven
    by_cases hc : (c.mentions k).contains true = true
    · exact rest.isSome_run_of_held (Change.isSome_run (List.contains_iff_mem.1 hc) held)
    · rw [Bool.eq_false_iff.2 hc, Bool.false_or] at h heven
      exact ih heven h _
  | branch c yes no rest ihyes ihno ih =>
    simp only [Script.isEven, Bool.or_eq_true, Bool.and_eq_true, beq_iff_eq] at heven
    rcases heven with hrest | ⟨⟨⟨hsame, hyes⟩, hno⟩, hrest⟩
    · exact Script.isSome_run_of_outside hrest _
    · rw [Script.enters_branch, hsame, Bool.or_self, Bool.or_eq_true] at h
      rcases h with h | h
      · rw [Script.run]
        split
        · exact rest.isSome_run_of_held (ihyes hyes (hsame.trans h) held)
        · exact rest.isSome_run_of_held (ihno hno h held)
      · exact ih hrest h _

/-- While no condition holds, a key is there before or has an entry. -/
theorem Script.enters_of_run (h : (get? (s.run (fun _ => false) held) k).isSome = true) :
    s.enters k = true ∨ (get? held k).isSome = true := by
  induction s generalizing held with
  | done => exact .inr h
  | change c rest ih =>
    rw [Script.enters_change, Bool.or_eq_true, List.contains_iff_mem]
    rcases ih h with h | h
    · exact .inl (.inr h)
    · exact (Change.mention_of_run h).imp_left .inl
  | branch c yes no rest ihyes ihno ih =>
    rw [Script.enters_branch, Bool.or_eq_true, Bool.or_eq_true]
    rcases ih h with h | h
    · exact .inl (.inr h)
    · exact (ihno h).imp_left fun h => .inl (.inr h)

/-- With even branches, the keys that are there on all paths are those with an entry. -/
theorem forall_mem_keys_iff (heven : true ∈ d.mentions k ∨ s.isEven k = true) :
    (∀ truth, k ∈ keys (s.run truth (.ofPairs (d.pairs truth [])))) ↔ true ∈ d.mentions k ++ s.mentions k := by
  simp only [← get?_isSome_iff, List.mem_append]
  constructor
  · intro h
    rcases Script.enters_of_run (h fun _ => false) with h | h
    · exact .inr (List.contains_iff_mem.1 h)
    · rw [get?_ofPairs] at h
      exact .inl ((mention_of_pairs h).resolve_right Bool.false_ne_true)
  · intro h truth
    by_cases hd : true ∈ d.mentions k
    · exact s.isSome_run_of_held (isSome_bind hd [])
    · exact Script.isSome_run_of_isEven (heven.resolve_left hd) (List.contains_iff_mem.2 (h.resolve_left hd)) _

/-! ## Statements in a row -/

/-- Where a statement mentions a key in a change of the dictionary. -/
def Stmt.mentions (k : String) : Stmt α κ → List Bool
  | .bind _ => []
  | .change c => c.mentions k

def Stmt.values (k : String) : Stmt α κ → List α
  | .bind _ => []
  | .change c => c.values k

/-- Whether no binding among some statements brings a key in or takes it away. -/
def stays (k : String) (held : Entries α) : List (Stmt α Empty) → Bool
  | [] => true
  | .bind d :: rest =>
    (Stmt.run unconditional held (.bind d)).has k == held.has k && stays k (Stmt.run unconditional held (.bind d)) rest
  | .change c :: rest => stays k (c.run unconditional held) rest

theorem unconditional_eq : unconditional = fun _ => false := funext nofun

theorem Display.mention_of_ne_nil {d : Display α Empty} (h : d.mentions k ≠ []) : true ∈ d.mentions k := by
  induction d with
  | nil => exact absurd rfl h
  | pair key x d ih =>
    by_cases hk : key = k
    · simp [Display.mentions, hk]
    · simp only [Display.mentions, hk, if_false] at h ⊢
      exact ih h
  | takeOver d ih => exact ih h
  | optional c => exact nomatch c

theorem Change.mention_of_ne_nil {c : Change α Empty} (h : c.mentions k ≠ []) : true ∈ c.mentions k := by
  cases c with
  | put key x =>
    by_cases hk : key = k
    · simp [Change.mentions, hk]
    · simp [Change.mentions, hk] at h
  | merge d => exact Display.mention_of_ne_nil h

theorem has_bind {d : Display α Empty} :
    (Stmt.run unconditional [] (.bind d)).has k = (d.mentions k).getLast?.isSome := by
  rw [Bool.eq_iff_iff, List.getLast?_isSome]
  constructor
  · intro h
    rw [Stmt.run, has, get?_ofPairs, unconditional_eq] at h
    exact List.ne_nil_of_mem ((mention_of_pairs h).resolve_right Bool.false_ne_true)
  · intro h
    exact isSome_bind (Display.mention_of_ne_nil h) []

theorem has_change {c : Change α Empty} :
    (c.run unconditional held).has k = (held.has k || (c.mentions k).getLast?.isSome) := by
  rw [Bool.eq_iff_iff, Bool.or_eq_true, List.getLast?_isSome]
  constructor
  · intro h
    rw [unconditional_eq] at h
    exact (Change.mention_of_run h).symm.imp_right List.ne_nil_of_mem
  · rintro (h | h)
    · exact c.isSome_run_of_held h
    · exact Change.isSome_run (Change.mention_of_ne_nil h) held

/-- A key that stays is there if it was there or is mentioned in a change. -/
theorem has_run {stmts : List (Stmt α Empty)} (h : stays k held stmts = true) :
    (run unconditional held stmts).has k = (held.has k || (stmts.flatMap (Stmt.mentions k)).getLast?.isSome) := by
  induction stmts generalizing held with
  | nil => simp [run]
  | cons stmt stmts ih =>
    cases stmt with
    | bind d =>
      simp only [stays, Bool.and_eq_true, beq_iff_eq] at h
      have hrest := ih h.2
      rw [h.1] at hrest
      exact hrest
    | change c =>
      have hrest := ih h
      rw [has_change, Bool.or_assoc, Bool.or_comm (c.mentions k).getLast?.isSome, ← Option.isSome_or,
        ← List.getLast?_append] at hrest
      exact hrest

end Building

namespace Shape

open Source Building Entries

variable {σ : Type}

/-- The values of a dictionary, read as expressions. -/
abbrev exprOf (t : Tree) : Option Expr := some (Expr.ofTree t)

/-! ## What the entries of a display show -/

/-- A node that is included under a condition only if `w`, with descriptions that are texts. -/
structure Honest (w : Bool) (n : Node) : Prop where
  worded : n.Worded
  conditional : n.facets.conditional = true → w = true
  properties : ∀ p ∈ n.properties, p.2.Worded

theorem stock_honest : Stock Honest Node.Worded where
  worded h := h.worded
  wordedField h := h
  loose h := ⟨h.worded, fun hc => absurd (h.conditional hc) Bool.false_ne_true, h.properties⟩
  made := by
    rintro n ⟨kind, format, h⟩
    refine ⟨worded_ofKind h, ?_, ?_⟩
    · rcases kind with k | _ | _ | _ <;> cases h <;> nofun
    · rcases kind with k | _ | _ | _ <;> cases h <;> nofun
  array h := ⟨worded_of_none rfl, nofun, nofun⟩
  object h := ⟨worded_of_none rfl, nofun, h⟩
  properties h := h.properties
  nullable b h := by
    refine ⟨?_, ?_, ?_⟩
    · intro d hd
      rw [Node.mapFacets, Node.facets_withFacets] at hd
      exact h.worded d hd
    · intro hc
      rw [Node.mapFacets, Node.facets_withFacets] at hc
      exact h.conditional hc
    · rw [Node.mapFacets, Node.properties_withFacets]
      exact h.properties
  field := by
    intro w n h
    unfold fieldNode
    dsimp only
    split
    · exact h.worded
    · intro d hd
      rw [Node.withRequired, Node.mapFacets, Node.facets_withFacets] at hd
      exact h.worded d hd
  included text h := by
    refine ⟨worded_included h.worded text, fun _ => rfl, ?_⟩
    rw [Node.mapFacets, Node.properties_withFacets]
    exact h.properties
  includedField text h := worded_included h text

/-- Pairs that show of each key whether it is mentioned, and that it is required if it is mentioned last as an entry.
The second is known of the keys whose values are wrapped by nothing. -/
structure Shows (T : Tables) (mentions : String → List Bool) (values : String → List Expr) (ps : List (String × Node)) :
    Prop where
  worded : Fields Node.Worded ps
  present : ∀ k, (last? ps k).isSome = (mentions k).getLast?.isSome
  required : ∀ k, (∀ e ∈ values k, wraps T (fun _ => false) e = false) →
    (last? ps k).map (·.facets.required) = (mentions k).getLast?

variable {T : Tables} {mentions mentions' : String → List Bool} {values values' : String → List Expr}
  {ps qs : List (String × Node)}

theorem Shows.nil : Shows T (fun _ => []) (fun _ => []) [] where
  worded _ hp := absurd hp List.not_mem_nil
  present _ := rfl
  required _ _ := rfl

theorem Shows.append (h : Shows T mentions values ps) (h' : Shows T mentions' values' qs) :
    Shows T (fun k => mentions k ++ mentions' k) (fun k => values k ++ values' k) (ps ++ qs) where
  worded := List.forall_mem_append.2 ⟨h.worded, h'.worded⟩
  present k := by rw [last?_append, List.getLast?_append, Option.isSome_or, Option.isSome_or, h.present, h'.present]
  required k hk := by
    obtain ⟨hvalues, hvalues'⟩ := List.forall_mem_append.1 hk
    rw [last?_append, List.getLast?_append, Option.map_or, h.required k hvalues, h'.required k hvalues']

/-- A field of its own is required unless its value is wrapped. -/
theorem Shows.entry {key : String} {e : Expr} {o : Option Node}
    (ho : IfSome (Honest (wraps T (fun _ => false) e)) o) :
    Shows T (fun k => if key = k then [true] else []) (fun k => if key = k then [e] else []) [(key, fieldNode o)] where
  worded p hp := by
    cases List.mem_singleton.1 hp
    cases o with
    | none => exact worded_of_none rfl
    | some n => exact stock_honest.field (ho n rfl)
  present k := by
    rw [last?_singleton]
    split <;> rfl
  required k hk := by
    rw [last?_singleton]
    split
    · rename_i heq
      rw [if_pos heq] at hk
      have hplain := hk e List.mem_cons_self
      have hfield : (fieldNode o).facets.required = true := by
        cases o with
        | none => rfl
        | some n =>
          have hn : n.facets.conditional = false := by
            by_contra hc
            exact absurd ((ho n rfl).conditional (by simpa using hc)) (by rw [hplain]; exact Bool.false_ne_true)
          simp [fieldNode, hn, Node.withRequired, Node.mapFacets]
      simp [hfield]
    · rfl

theorem last?_included (text : String) (ps : List (String × Node)) (k : String) :
    last? ((Entries.ofPairs ps).map fun p => (p.1, p.2.mapFacets (includedFacets text))) k =
      (last? ps k).map fun n => n.mapFacets (includedFacets text) := by
  have hps : last? (Entries.ofPairs ps) k = last? ps k := by
    rw [last?_eq_get? (nodup_keys_ofPairs ps), get?_ofPairs]
  rw [← hps]
  exact last?_map (fun n : Node => n.mapFacets (includedFacets text)) (Entries.ofPairs ps) k

theorem Shows.included (text : String) (h : Shows T mentions values ps) :
    Shows T (fun k => (mentions k).map fun _ => false) (fun _ => [])
      ((Entries.ofPairs ps).map fun p => (p.1, p.2.mapFacets (includedFacets text))) where
  worded p hp := by
    obtain ⟨q, hq, rfl⟩ := List.mem_map.1 hp
    exact worded_included (fields_ofPairs h.worded q hq) text
  present k := by rw [last?_included, Option.isSome_map, List.getLast?_map, Option.isSome_map, h.present]
  required k _ := by
    have hpresent := h.present k
    rw [last?_included, List.getLast?_map, Option.map_map]
    cases hp : last? ps k with
    | none =>
      rw [hp] at hpresent
      simp [Option.not_isSome_iff_eq_none.1 (by rw [← hpresent]; simp)]
    | some n =>
      rw [hp] at hpresent
      obtain ⟨b, hb⟩ := Option.isSome_iff_exists.1 hpresent.symm
      simp [hb, Node.mapFacets, includedFacets]

section

variable {E : Problem → Prop} {s : Scope (Over σ)}
  (hs : Scopes (stock_honest.joint E) s.tables (fun _ => false) fun _ => s)
  (hclosed : ∀ name, s.bound name = none) {v : String} {κ : Type} {cond : Tree → Option κ} {d : Display Expr κ}

theorem entriesOf_append (es es' : List (EntryKey × Expr)) :
    entriesOf s (es ++ es') = do return (← entriesOf s es) ++ (← entriesOf s es') := by
  induction es with
  | nil => simp [entriesOf]
  | cons e es ih =>
    obtain ⟨key, e⟩ := e
    cases key with
    | named key | computed => simp [entriesOf, ih]
    | splat => simp [entriesOf, ih, ← List.append_assoc]

include hs

theorem entriesOf_named (key : String) (e : Expr) :
    Ends E (Shows s.tables (fun k => if key = k then [true] else []) (fun k => if key = k then [e] else []))
      (entriesOf s [(.named key, e)]) := by
  simp only [entriesOf]
  exact Ends.bind (stock_honest.valueOf_ends hs (some key) e) fun o ho => Ends.bind (P := (· = [])) (.pure rfl)
    fun _ h => .pure (h ▸ Shows.entry ho)

include hclosed

theorem entriesOf_shows {items : List Tree} (h : Lists v exprOf cond items d) :
    Ends E (Shows s.tables (fun k => d.mentions k) fun k => d.values k) (entriesOf s (Expr.ofEntries items)) := by
  induction h with
  | nil =>
    simp only [Expr.ofEntries, entriesOf]
    exact .pure .nil
  | @pair role span text name value key x items d hname hkey hvalue hread hquiet rest ih =>
    cases hread
    have hentries : Expr.ofEntries (.node .pair role span text [name, value] :: items) =
        [(.named key, Expr.ofTree value)] ++ Expr.ofEntries items := by
      simp [Expr.ofEntries, Expr.ofRole, Expr.orOther, Tree.inRole?, hname, hkey, hvalue]
    have hmentions : (fun k => Display.mentions k (.pair key (Expr.ofTree value) d)) =
        fun k => (if key = k then [true] else []) ++ d.mentions k := by
      funext k
      by_cases hk : key = k <;> simp [Display.mentions, hk]
    have hvalues : (fun k => Display.values k (.pair key (Expr.ofTree value) d)) =
        fun k => (if key = k then [Expr.ofTree value] else []) ++ d.values k := by
      funext k
      by_cases hk : key = k <;> simp [Display.values, hk]
    rw [hentries, entriesOf_append, hmentions, hvalues]
    exact Ends.bind (entriesOf_named hs key _) fun ps hps => Ends.bind ih fun qs hqs => .pure (hps.append hqs)
  | takeOver rest ih =>
    simp only [Expr.ofEntries, entriesOf, Expr.ofTree, splatOf, hclosed]
    exact Ends.bind (P := (· = [])) (.pure rfl) fun taken htaken => Ends.bind ih fun ps hps => .pure (htaken ▸ hps)
  | @optional _ _ _ _ _ _ _ _ _ _ _ _ _ _ _ entries items condition c d d' hcond hquiet hentries rest ihentries ih =>
    simp only [Expr.ofEntries, entriesOf, Expr.ofTree, splatOf]
    have hincluded := includedFields_eq conditionSentence (ihentries.mono fun ps hps => ⟨hps, hps.worded⟩)
    refine Ends.bind hincluded fun qs hqs => Ends.bind ih fun ps hps => .pure ?_
    obtain ⟨rs, hrs, rfl⟩ := hqs
    exact (hrs.included conditionSentence).append hps

omit hs hclosed in
theorem endsWith_update (v : String) : Text.endsWith (v ++ ".update") ".update" = true := by
  rw [Text.endsWith, String.toList_append]
  exact List.isSuffixOf_iff_suffix.2 ⟨v.toList, rfl⟩

omit hs hclosed in
theorem take_update (v : String) : Text.take ((v ++ ".update").length - 7) (v ++ ".update") = v := by
  have hlength : (v ++ ".update").length - 7 = v.toList.length := by
    have hupdate : ".update".length = 7 := by decide
    rw [String.length_append, hupdate, Nat.add_sub_cancel, String.length_toList]
  rw [Text.take, hlength, String.toList_append, List.take_left, String.ofList_toList]

/-- An assignment or a call that changes the dictionary in a variable is an update of it that shows what it mentions. -/
theorem updateOf?_does {act : Tree} {c : Change Expr κ} (h : Does v exprOf cond act (.change c)) :
    ∃ es, updateOf? act = some ⟨v, es⟩ ∧
      Ends E (Shows s.tables (fun k => c.mentions k) fun k => c.values k) (entriesOf s es) := by
  cases h with
  | put hname hkey hvalue hread hquiet =>
    cases hread
    refine ⟨_, ?_, entriesOf_named hs _ _⟩
    simp [updateOf?, Tree.child?, Tree.inRole?, Tree.childText, Tree.textIn, hname, hkey, hvalue]
  | merge hparts h =>
    refine ⟨_, ?_, entriesOf_shows hs hclosed h⟩
    simp [updateOf?, Tree.child?, Tree.inRole?, Tree.childText, Tree.textIn, argumentsOf, isSplat, endsWith_update,
      take_update, Expr.ofTree, Expr.entries?, -String.length_append]

/-- The updates of a variable show what the changes among some statements mention. -/
theorem updates_show {nodes : List Tree} {stmts : List (Stmt Expr κ)}
    (h : List.Forall₂ (Does v exprOf cond) nodes stmts) :
    Ends E (Shows s.tables (fun k => stmts.flatMap (Stmt.mentions k)) fun k => stmts.flatMap (Stmt.values k))
      (entriesOf s (((nodes.filterMap updateOf?).filter (·.holder == v)).flatMap (·.entries))) := by
  induction h with
  | nil =>
    simp only [List.filterMap_nil, List.filter_nil, List.flatMap_nil, entriesOf]
    exact .pure .nil
  | @cons act stmt nodes stmts hact hnodes ih =>
    cases stmt with
    | bind d =>
      have hnone : updateOf? act = none := by
        cases hact
        rfl
      rw [List.filterMap_cons_none hnone]
      exact ih
    | change c =>
      obtain ⟨es, hes, hshows⟩ := updateOf?_does hs hclosed hact
      rw [List.filterMap_cons_some hes, List.filter_cons_of_pos (by simp), List.flatMap_cons, entriesOf_append]
      exact Ends.bind hshows fun ps hps => Ends.bind ih fun qs hqs => .pure (hps.append hqs)

end

/-! ## The shape of a body -/

theorem bindingsOf_eq (v : String) (body : Tree) :
    bindingsOf body = (acts v body.children).foldl bindingStep [] := by
  refine foldl_walkScope [] fun acc t ht => ?_
  unfold bindingStep
  split
  · rename_i hform _ _
    simp [isAct, hform] at ht
  · rfl

theorem producedIn_eq (v : String) (body : Tree) : producedIn body = (acts v body.children).filterMap produced? := by
  refine filterMap_walkScope fun t ht => ?_
  unfold produced?
  cases hform : t.form
  case returnStatement => simp [isAct, hform] at ht
  case yield => simp [isAct, hform] at ht
  all_goals rfl

section

variable {v : String} {κ : Type} {cond : Tree → Option κ} {nodes : List Tree} {stmts : List (Stmt Expr κ)}
  {d : Display Expr κ} {body : Tree}

theorem foldl_bindingStep {acc : Entries Expr} (hacc : acc.has v = true)
    (h : List.Forall₂ (Does v exprOf cond) nodes stmts) : nodes.foldl bindingStep acc = acc := by
  induction h with
  | nil => rfl
  | @cons act stmt nodes stmts hact hnodes ih =>
    have hstep : bindingStep acc act = acc := by
      cases hact with
      | bind h => exact if_pos hacc
      | put hname hkey hvalue hread hquiet =>
        unfold bindingStep
        split
        · rename_i hleft _
          cases hleft
          rfl
        · rfl
      | merge hparts h => rfl
    rw [List.foldl_cons, hstep]
    exact ih

theorem filterMap_produced? (h : List.Forall₂ (Does v exprOf cond) nodes stmts) :
    nodes.filterMap produced? = [] := by
  induction h with
  | nil => rfl
  | cons hact hnodes ih =>
    rw [List.filterMap_cons_none, ih]
    cases hact <;> rfl

theorem eq_append_update {callee : String} (h : Text.endsWith callee ".update" = true) :
    callee = Text.take (callee.length - 7) callee ++ ".update" := by
  obtain ⟨front, hfront⟩ := List.isSuffixOf_iff_suffix.1 h
  have hcallee : callee = String.ofList front ++ ".update" := by
    rw [← String.ofList_toList (s := callee), ← hfront, String.ofList_append, String.ofList_toList]
  rw [hcallee, take_update]

/-- Of all updates in a body those of one variable are among its acts. -/
theorem filter_updatesIn (v : String) (body : Tree) : (updatesIn body).filter (·.holder == v) =
    ((acts v body.children).filterMap updateOf?).filter (·.holder == v) := by
  rw [updatesIn, List.filter_filterMap, List.filter_filterMap]
  refine filterMap_walkScope fun t ht => ?_
  cases hform : t.form
  case assignment => simp [isAct, hform] at ht
  case call =>
    simp only [isAct, hform, beq_eq_false_iff_ne] at ht
    simp only [updateOf?, hform]
    split
    · rename_i hends
      refine Option.filter_eq_none_iff.2 fun u hu => ?_
      cases hu
      rw [beq_iff_eq]
      exact fun hv => ht (hv ▸ eq_append_update hends)
    · rfl
  all_goals simp [updateOf?, hform]

/-- Classes and attributes are answered. -/
structure Answers (r : Resolvers (Over σ)) : Prop where
  nested : ∀ f, r.nested = some f → ∀ text, Ends (fun _ => False) (IfSome (Honest false)) (f text)
  member : ∀ f, r.member = some f → ∀ path, Ends (fun _ => False) (IfSome (Honest false)) (f path)

/-- Where classes and attributes are answered, no local name is needed to read what a body sets. -/
theorem scopes_closed {r : Resolvers (Over σ)} {bound : String → Option (Binding _)}
    (hT : ∀ p, ¬ T.Meets p) (hr : Answers r) (hclosed : ∀ name, bound name = none) :
    Scopes (stock_honest.joint fun _ => False) T (fun _ => false) fun _ => ⟨T, r, bound⟩ := by
  refine ⟨inferInstance, fun _ => rfl, hT, fun text => ?_, fun text => ?_, fun name => ?_, fun name key => ?_,
    fun name => ?_⟩
  · unfold Scope.classNode
    dsimp only
    split
    · rename_i f hf
      split
      · exact Ends.mono (hr.nested f hf text) fun _ ho => .const ho
      · exact Weave.failureO _
    · exact Weave.failureO _
  · unfold Scope.attributeNode
    dsimp only
    split
    · rename_i f path hf hpath
      exact Ends.mono (hr.member f hf path) fun _ ho => .const ho
    · exact Weave.pure _ .none
  · simp only [Scope.boundShape, hclosed]
    exact Weave.failureO _
  · simp only [Scope.boundValue, hclosed]
    exact Weave.failureO _
  · simp only [Scope.boundEntries, hclosed]
    exact Weave.pure _ .nil

variable {r : Resolvers (Over σ)} {last : Tree} (hT : ∀ p, ¬ T.Meets p) (hr : Answers r)
  (hacts : acts v body.children = nodes ++ [last]) (hlast : Returns v last)
  (hnodes : List.Forall₂ (Does v exprOf cond) nodes (.bind d :: stmts))

include hacts hlast hnodes

theorem bindingsOf_acts : ∃ text items, Lists v exprOf cond items d ∧
    bindingsOf body = [(v, .dictionary text (Expr.ofEntries items))] := by
  rw [bindingsOf_eq v, hacts, List.foldl_append]
  cases hlast
  cases hnodes with
  | cons hact hnodes =>
    cases hact with
    | @bind role span span₁ span₂ text text₂ items _ hitems =>
      refine ⟨text₂, items, hitems, ?_⟩
      have hfirst : bindingStep [] (.node .assignment role span text [.node .identifier (some .left) span₁ v [],
          .node .dictionary (some .right) span₂ text₂ items]) = [(v, .dictionary text₂ (Expr.ofEntries items))] := by
        simp [bindingStep, Tree.child?, Tree.inRole?, Expr.ofTree, Entries.setDefault, Entries.has, Entries.get?,
          Entries.set]
      rw [List.foldl_cons, List.foldl_cons, hfirst, foldl_bindingStep (by simp [Entries.has, Entries.get?]) hnodes]
      rfl

theorem producedIn_acts : (producedIn body).map Expr.ofTree = [.name v] := by
  rw [producedIn_eq v, hacts, List.filterMap_append, filterMap_produced? hnodes]
  cases hlast
  simp [produced?, Expr.ofTree]

omit hnodes in
theorem updatesIn_acts :
    (updatesIn body).filter (·.holder == v) = (nodes.filterMap updateOf?).filter (·.holder == v) := by
  rw [filter_updatesIn, hacts, List.filterMap_append]
  cases hlast
  simp [updateOf?]

/-- The pairs that a display and the changes after it show. -/
abbrev ShownAfter (T : Tables) (d : Display Expr κ) (stmts : List (Stmt Expr κ)) : List (String × Node) → Prop :=
  Shows T (fun k => d.mentions k ++ stmts.flatMap (Stmt.mentions k)) fun k =>
    d.values k ++ stmts.flatMap (Stmt.values k)

include hT hr

/-- A body that binds a variable to a display, changes the dictionary and returns it has an object as its shape, with
the fields that the first display and the changes mention. -/
theorem shapeIn_acts : Ends (fun _ => False)
    (fun o => ∃ ps, o = some (Node.objectOf (Entries.ofPairs ps)) ∧ ShownAfter T d stmts ps) (shapeIn T r body) := by
  obtain ⟨text, items, hitems, hbindings⟩ := bindingsOf_acts hacts hlast hnodes
  let b : Body (Over σ) := ⟨T, r, [(v, .dictionary text (Expr.ofEntries items))], updatesIn body⟩
  have hs : Scopes (stock_honest.joint fun _ => False) T (fun _ => false) fun _ => ⟨T, r, b.binding? 0 [v]⟩ :=
    scopes_closed hT hr fun _ => rfl
  have hentries : Ends (fun _ => False) (ShownAfter T d stmts)
      (entriesOf ⟨T, r, b.binding? 0 [v]⟩ (Expr.ofEntries items ++ b.updatesOf v)) := by
    rw [entriesOf_append, Body.updatesOf, updatesIn_acts hacts hlast]
    exact Ends.bind (entriesOf_shows hs (fun _ => rfl) hitems) fun ps hps =>
      Ends.bind (updates_show hs (fun _ => rfl) hnodes) fun qs hqs => .pure (hps.append hqs)
  -- The variable is looked through once: inside its own display it is bound to nothing.
  have hshape : shapeOf b.scope (.name v) = OptionT.lift (do
      return Node.objectOf (Entries.ofPairs (← entriesOf ⟨T, r, b.binding? 0 [v]⟩
        (Expr.ofEntries items ++ b.updatesOf v)))) := by
    simp [shapeOf, Body.scope, b, Body.binding?, Entries.get?]
  unfold shapeIn
  rw [producedIn_acts hacts hlast hnodes, hbindings]
  change Ends _ _ (firstShape b.scope [.name v])
  simp only [firstShape, hshape, OptionT.run_lift, bind_pure_comp, bind_map_left, Functor.map_map]
  exact Ends.bind hentries fun ps hps => .pure ⟨ps, rfl, hps⟩

end

/-- The shape of a body that builds a dictionary statement by statement is an object. It has the keys of the dictionary,
those apart that a later binding of the variable brings in or takes away. -/
theorem shapeIn_built {v : String} {body : Tree} {r : Resolvers (ExceptT Problem (StateM σ))}
    {d : Display Expr Empty} {stmts : List (Stmt Expr Empty)} (hT : ∀ p, ¬ T.Meets p) (hr : Answers r)
    (h : Straight v exprOf (fun _ => none) body.children (.bind d :: stmts)) (l : σ) :
    ∃ props, result (shapeIn T r body) l = .ok (some (Node.objectOf props)) ∧
      ∀ k, stays k (built [.bind d]) stmts = true →
        (k ∈ keys props ↔ k ∈ keys (built (.bind d :: stmts))) := by
  obtain ⟨nodes, last, hacts, hlast, hnodes⟩ := acts_straight h
  obtain ⟨_, hresult, ps, rfl, hps⟩ :=
    (shapeIn_acts hT hr hacts hlast hnodes l).resolve_right fun ⟨_, _, hfalse⟩ => hfalse
  refine ⟨_, hresult, fun k hk => ?_⟩
  have hbuilt : (built (.bind d :: stmts)).has k =
      (d.mentions k ++ stmts.flatMap (Stmt.mentions k)).getLast?.isSome := by
    have hrun := has_run hk
    rw [List.getLast?_append, Option.isSome_or, Bool.or_comm, ← has_bind]
    exact hrun
  rw [← get?_isSome_iff, ← get?_isSome_iff, get?_ofPairs, hps.present k, ← hbuilt, has]

theorem answers_none : Answers ({} : Resolvers (Over σ)) where
  nested := nofun
  member := nofun

/-- The fields of the shape of a body in their order, and which of them are required. -/
def fieldsIn (body : Tree) : Option (List (String × Bool)) :=
  match result (shapeIn (m := Over Unit) {} {} body) () with
  | .ok (some n) => some (n.properties.map fun p => (p.1, p.2.facets.required))
  | _ => none

/-- An entry whose value is a number. -/
def numberEntry (key number : String) : Written := entry ("'" ++ key ++ "'") .integer number

/-- An entry is set to a number. -/
def numberSetting (v key number : String) : Written := setting v ("'" ++ key ++ "'") .integer number

/-- Entries are set, taken over and merged in. -/
def grownBody : Tree := Building.bodyOf [
  statement (binding "v" [numberEntry "a" "1"]),
  statement (numberSetting "v" "b" "2"),
  statement (binding "v" [taken "v", numberEntry "a" "3"]),
  statement (merging "v" [numberEntry "c" "4"]),
  returned "v"]

def grownStmts : List (Stmt Expr Empty) := [
  .change (.put "b" (.integer "2")),
  .bind (.takeOver (.pair "a" (.integer "3") .nil)),
  .change (.merge (.pair "c" (.integer "4") .nil))]

theorem shapeIn_built_grown :
    (∀ k ∈ ["a", "b", "c", "d"], stays k (built [.bind (.pair "a" (.integer "1") .nil)]) grownStmts = true) ∧
      ∃ props, result (shapeIn (m := ExceptT Problem (StateM Unit)) {} {} grownBody) () =
          .ok (some (Node.objectOf props)) ∧
        ∀ k ∈ ["a", "b", "c", "d"],
          (k ∈ keys props ↔ k ∈ keys (built (.bind (.pair "a" (.integer "1") .nil) :: grownStmts))) := by
  have hstraight : Straight "v" exprOf (fun _ => none) grownBody.children
      (.bind (.pair "a" (.integer "1") .nil) :: grownStmts) :=
    straight_statement (does_binding (lists_entry (by decide +kernel) rfl rfl .nil))
      (straight_statement (does_setting (by decide +kernel) rfl rfl)
        (straight_statement (does_binding (lists_taken (lists_entry (by decide +kernel) rfl rfl .nil)))
          (straight_statement (does_merging (lists_entry (by decide +kernel) rfl rfl .nil)) straight_returned)))
  have hstays : ∀ k ∈ ["a", "b", "c", "d"],
      stays k (built [.bind (.pair "a" (.integer "1") .nil)]) grownStmts = true := by decide +kernel
  obtain ⟨props, hresult, hprops⟩ := shapeIn_built not_meets_tables answers_none hstraight ()
  exact ⟨hstays, props, hresult, fun k hk => hprops k (hstays k hk)⟩

/-- The variable is bound to a dictionary with other keys. -/
def replacedBody : Tree := Building.bodyOf [
  statement (binding "v" [numberEntry "a" "1"]),
  statement (binding "v" [numberEntry "b" "2"]),
  returned "v"]

def replacedStmts : List (Stmt Expr Empty) :=
  [.bind (.pair "a" (.integer "1") .nil), .bind (.pair "b" (.integer "2") .nil)]

/-- The shape of a body has the keys of the first dictionary that a variable is bound to, not of the last. -/
theorem fieldsIn_replaced :
    Straight "v" exprOf (fun _ => none) replacedBody.children replacedStmts ∧
      fieldsIn replacedBody = some [("a", true)] ∧ keys (built replacedStmts) = ["b"] := by
  refine ⟨?_, by decide +kernel, by decide +kernel⟩
  exact straight_statement (does_binding (lists_entry (by decide +kernel) rfl rfl .nil))
    (straight_statement (does_binding (lists_entry (by decide +kernel) rfl rfl .nil)) straight_returned)

/-- Entries of a key are on both sides of a branch or on none, no entries under a condition come after them, and no
wrapper stands around their values. -/
structure Regular {κ : Type} (T : Tables) (d : Display Expr κ) (s : Script Expr κ) (k : String) : Prop where
  even : true ∈ d.mentions k ∨ s.isEven k = true
  last : true ∈ d.mentions k ++ s.mentions k → (d.mentions k ++ s.mentions k).getLast? = some true
  plain : ∀ e ∈ d.values k ++ s.changes.flatMap (Change.values k), wraps T (fun _ => false) e = false

/-- The shape of a body that builds a dictionary with branches is an object. Of the regular keys exactly those are
required that the dictionary has on all paths. -/
theorem shapeIn_required {κ : Type} {v : String} {body : Tree} {r : Resolvers (ExceptT Problem (StateM σ))}
    {cond : Tree → Option κ} {d : Display Expr κ} {s : Script Expr κ} (hT : ∀ p, ¬ T.Meets p) (hr : Answers r)
    (h : Builds v exprOf cond body.children d s) (l : σ) :
    ∃ props, result (shapeIn T r body) l = .ok (some (Node.objectOf props)) ∧
      ∀ k, Regular T d s k → ((∃ n, get? props k = some n ∧ n.facets.required = true) ↔
        ∀ truth, k ∈ keys (s.run truth (.ofPairs (d.pairs truth [])))) := by
  obtain ⟨nodes, last, hacts, hlast, hnodes⟩ := acts_builds h
  obtain ⟨_, hresult, ps, rfl, hps⟩ :=
    (shapeIn_acts hT hr hacts hlast hnodes l).resolve_right fun ⟨_, _, hfalse⟩ => hfalse
  refine ⟨_, hresult, fun k hk => ?_⟩
  have hrequired := hps.required k
  simp only [List.flatMap_map, Stmt.mentions, Stmt.values] at hrequired
  have hlast := hrequired hk.plain
  rw [forall_mem_keys_iff hk.even, get?_ofPairs, ← Option.map_eq_some_iff, hlast]
  exact ⟨List.mem_of_getLast?, hk.last⟩

/-- A key under a condition, and one with entries on both sides of a branch. -/
def branchedBody : Tree := buildingBody "v" [numberEntry "a" "1", given "c" [numberEntry "b" "2"]]
  [branchingElse "d" [statement (numberSetting "v" "k" "3")] [statement (merging "v" [numberEntry "k" "4"])]]

def branchedDisplay : Display Expr String :=
  .pair "a" (.integer "1") (.optional "c" (.pair "b" (.integer "2") .nil) .nil)

def branchedScript : Script Expr String :=
  .branch "d" (.change (.put "k" (.integer "3")) .done) (.change (.merge (.pair "k" (.integer "4") .nil)) .done) .done

theorem shapeIn_required_branched :
    (∀ k ∈ ["a", "b", "k"], Regular {} branchedDisplay branchedScript k) ∧
      ∃ props, result (shapeIn (m := ExceptT Problem (StateM Unit)) {} {} branchedBody) () =
          .ok (some (Node.objectOf props)) ∧
        ∀ k ∈ ["a", "b", "k"], ((∃ n, get? props k = some n ∧ n.facets.required = true) ↔
          ∀ truth, k ∈ keys (branchedScript.run truth (.ofPairs (branchedDisplay.pairs truth [])))) := by
  have hbuilds : Builds "v" exprOf (fun t => some t.text) branchedBody.children branchedDisplay branchedScript :=
    builds_body (lists_entry (by decide +kernel) rfl rfl
        (lists_given rfl (lists_entry (by decide +kernel) rfl rfl .nil) .nil))
      (.ifElse rfl (acts_word rfl) (follows_statement (does_setting (by decide +kernel) rfl rfl) .done)
        (follows_statement (does_merging (lists_entry (by decide +kernel) rfl rfl .nil)) .done) .done)
  have heven : ∀ k ∈ ["a", "b", "k"], true ∈ branchedDisplay.mentions k ∨ branchedScript.isEven k = true := by decide
  have hlast : ∀ k ∈ ["a", "b", "k"], true ∈ branchedDisplay.mentions k ++ branchedScript.mentions k →
      (branchedDisplay.mentions k ++ branchedScript.mentions k).getLast? = some true := by decide
  have hplain : ∀ k ∈ ["a", "b", "k"],
      ∀ e ∈ branchedDisplay.values k ++ branchedScript.changes.flatMap (Change.values k),
        wraps {} (fun _ => false) e = false := by decide +kernel
  have hregular : ∀ k ∈ ["a", "b", "k"], Regular {} branchedDisplay branchedScript k :=
    fun k hk => ⟨heven k hk, hlast k hk, hplain k hk⟩
  obtain ⟨props, hresult, hprops⟩ := shapeIn_required not_meets_tables answers_none hbuilds ()
  exact ⟨hregular, props, hresult, fun k hk => hprops k (hregular k hk)⟩

/-- A key is set in a branch. -/
def unevenBody : Tree :=
  buildingBody "v" [numberEntry "a" "1"] [branching "c" [statement (numberSetting "v" "b" "2")]]

def unevenDisplay : Display Expr String := .pair "a" (.integer "1") .nil

def unevenScript : Script Expr String := .branch "c" (.change (.put "b" (.integer "2")) .done) .done .done

/-- A key is set again under a condition. -/
def repeatedBody : Tree := buildingBody "v" [numberEntry "a" "1", given "c" [numberEntry "a" "2"]] []

def repeatedDisplay : Display Expr String :=
  .pair "a" (.integer "1") (.optional "c" (.pair "a" (.integer "2") .nil) .nil)

/-- A key that is set in a branch is required although a path is without it, and a key that is set again under a
condition is not required although all paths have it. -/
theorem fieldsIn_uneven :
    (Builds "v" exprOf (fun t => some t.text) unevenBody.children unevenDisplay unevenScript ∧
      fieldsIn unevenBody = some [("a", true), ("b", true)] ∧
      ¬ ∀ truth, "b" ∈ keys (unevenScript.run truth (.ofPairs (unevenDisplay.pairs truth [])))) ∧
    Builds "v" exprOf (fun t => some t.text) repeatedBody.children repeatedDisplay .done ∧
      fieldsIn repeatedBody = some [("a", false)] ∧
      ∀ truth, "a" ∈ keys (Script.done.run truth (.ofPairs (repeatedDisplay.pairs truth []))) := by
  refine ⟨⟨?_, by decide +kernel, fun h => ?_⟩, ?_, by decide +kernel, ?_⟩
  · exact builds_body (lists_entry (by decide +kernel) rfl rfl .nil)
      (.ifOnly rfl (acts_word rfl) (follows_statement (does_setting (by decide +kernel) rfl rfl) .done) .done)
  · exact absurd (h fun _ => false) (by decide +kernel)
  · exact builds_body (lists_entry (by decide +kernel) rfl rfl
      (lists_given rfl (lists_entry (by decide +kernel) rfl rfl .nil) .nil)) .done
  · exact (forall_mem_keys_iff (.inl (by decide))).2 (by decide)

end Shape
end ApiSchema
