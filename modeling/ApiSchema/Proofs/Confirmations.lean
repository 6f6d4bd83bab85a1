import Mathlib.Data.List.Induction
import ApiSchema.Proofs.Entries
import ApiSchema.Proofs.Family
import ApiSchema.Rule.Interpret

/-!
# Confirmed fields

The fields of a rule set are interpreted one by one, and a confirmed field brings a twin for the name that it is
confirmed under. What stands for a name in the end depends only on the rules and not on their order (`get?_assembled`):
the field's own rules if it has some, and else the twin of the field that is confirmed by it. So a confirmation only
adds names (`interpretSet_adds_twins`).
-/
namespace ApiSchema.Rule

variable {rs : Entries Raw} {fs : Entries (Bool × Node)}

/-- The name of the field that confirms another. -/
def twinName (path : String) : String := path ++ "_confirmation"

/-- Whether rules ask for a confirmation. -/
def isConfirmed (rules : Raw) : Bool := (parse rules).any (·.name == "confirmed")

/-! ## Assembling the fields -/

/-- A field after its interpretation: its path, whether it is confirmed, and its node. -/
abbrev Interpreted := String × Bool × Node

/-- The fields with one more of them and its twin. -/
def withField (acc : Entries Node) : Interpreted → Entries Node
  | (path, confirmed, n) =>
    if confirmed then (acc.set path n).setDefault (twinName path) (confirmation path n) else acc.set path n

/-- The fields of a rule set from their nodes. -/
def assembled (fs : Entries (Bool × Node)) : Entries Node := fs.foldl withField []

/-- The twin that stands for a name. -/
def twin? (fs : Entries (Bool × Node)) (name : String) : Option Node :=
  (fs.find? fun f => f.2.1 && twinName f.1 == name).map fun f => confirmation f.1 f.2.2

theorem get?_setDefault {α : Type} (es : Entries α) (key : String) (v : α) (k : String) :
    (es.setDefault key v).get? k = if key = k then (es.get? k).or (some v) else es.get? k := by
  unfold Entries.setDefault Entries.has
  cases hv : es.get? key with
  | none =>
    rw [if_neg (by simp), Entries.get?_set]
    by_cases h : key = k
    · subst h
      simp [hv]
    · simp [h]
  | some w =>
    rw [if_pos (by simp)]
    by_cases h : key = k
    · subst h
      simp [hv]
    · simp [h]

theorem twin?_singleton (path : String) (confirmed : Bool) (n : Node) (k : String) :
    twin? [(path, confirmed, n)] k = if confirmed = true ∧ twinName path = k then some (confirmation path n)
      else none := by
  by_cases h : confirmed = true ∧ twinName path = k
  · simp [twin?, h]
  · rw [if_neg h]
    simpa [twin?] using h

/-- One more field replaces what stood for its name. Its twin replaces nothing. -/
theorem get?_withField (acc : Entries Node) (path : String) (confirmed : Bool) (n : Node) (k : String) :
    (withField acc (path, confirmed, n)).get? k =
      if path = k then some n else (acc.get? k).or (twin? [(path, confirmed, n)] k) := by
  rw [twin?_singleton]
  cases confirmed with
  | false => simp [withField, Entries.get?_set]
  | true =>
    simp only [withField, if_true, get?_setDefault, Entries.get?_set, true_and]
    by_cases hpath : path = k
    · simp [hpath]
    · by_cases htwin : twinName path = k <;> simp [hpath, htwin]

/-- A name stands for its own field, and else for the twin of another. -/
theorem get?_assembled (hkeys : fs.keys.Nodup) (k : String) :
    (assembled fs).get? k = ((fs.get? k).map (·.2)).or (twin? fs k) := by
  induction fs using List.reverseRecOn with
  | nil => rfl
  | append_singleton fs f ih =>
    obtain ⟨path, confirmed, n⟩ := f
    have hsplit : (Entries.keys fs).Nodup ∧ path ∉ Entries.keys fs := by
      have hkeys : (Entries.keys fs ++ [path]).Nodup := by simpa [Entries.keys] using hkeys
      obtain ⟨hfs, -, hapart⟩ := List.nodup_append.1 hkeys
      exact ⟨hfs, fun hmem => hapart path hmem path List.mem_cons_self rfl⟩
    have hlast : assembled (fs ++ [(path, confirmed, n)]) = withField (assembled fs) (path, confirmed, n) := by
      rw [assembled, List.foldl_append]
      rfl
    have htwin : twin? (fs ++ [(path, confirmed, n)]) k = (twin? fs k).or (twin? [(path, confirmed, n)] k) := by
      rw [twin?, List.find?_append, Option.map_or]
      rfl
    rw [hlast, get?_withField, ih hsplit.1, Entries.get?_append, htwin]
    by_cases hpath : path = k
    · subst hpath
      have hnone : Entries.get? fs path = none := by
        rw [← Option.not_isSome_iff_eq_none, Entries.get?_isSome_iff]
        exact hsplit.2
      simp [hnone, Entries.get?]
    · simp [hpath, Entries.get?, Option.or_assoc]

/-! ## Interpreting the fields -/

variable {i : Interpreter Attempt}

/-- A field of a rule set is interpreted by itself. -/
def interpretField (i : Interpreter Attempt) (r : String × Raw) : Attempt Interpreted := do
  let n ← interpret i r.2
  return (r.1, isConfirmed r.2, n)

theorem interpretSet_eq_foldlM (i : Interpreter Attempt) (rs : Entries Raw) :
    interpretSet i rs = rs.foldlM (fun acc r => withField acc <$> interpretField i r) [] := by
  refine congrArg (fun step => List.foldlM step [] rs) ?_
  funext acc (path, rules)
  simp only [interpretField, interpret, isConfirmed]
  cases interpretTokens i (parse rules) with
  | error p => rfl
  | ok n => cases (parse rules).any (·.name == "confirmed") <;> rfl

/-- First all fields are interpreted, then they are assembled. -/
theorem interpretSet_eq (i : Interpreter Attempt) (rs : Entries Raw) :
    interpretSet i rs = assembled <$> rs.mapM (interpretField i) := by
  rw [interpretSet_eq_foldlM]
  unfold assembled
  generalize ([] : Entries Node) = acc
  induction rs generalizing acc with
  | nil => rfl
  | cons r rs ih =>
    rw [List.foldlM_cons, List.mapM_cons]
    cases interpretField i r with
    | error p => rfl
    | ok f =>
      refine (ih (withField acc f)).trans ?_
      cases rs.mapM (interpretField i) <;> rfl

/-- What becomes of a field of a rule set. -/
def Interprets (i : Interpreter Attempt) (r : String × Raw) (f : Interpreted) : Prop :=
  ∃ n, interpret i r.2 = .ok n ∧ f = (r.1, isConfirmed r.2, n)

theorem interpretField_eq_ok_iff {r : String × Raw} {f : Interpreted} :
    interpretField i r = .ok f ↔ Interprets i r f := by
  unfold interpretField Interprets
  cases interpret i r.2 with
  | error p => exact iff_of_false nofun nofun
  | ok n =>
    constructor
    · intro h
      cases h
      exact ⟨n, rfl, rfl⟩
    · rintro ⟨m, h, rfl⟩
      cases h
      rfl

theorem mapM_interpretField_eq_ok_iff :
    rs.mapM (interpretField i) = .ok fs ↔ List.Forall₂ (Interprets i) rs fs := by
  simp only [mapM_eq_ok_iff, interpretField_eq_ok_iff]

theorem interpretSet_eq_ok_iff {fields : Entries Node} :
    interpretSet i rs = .ok fields ↔ ∃ fs : Entries (Bool × Node), List.Forall₂ (Interprets i) rs fs ∧
      assembled fs = fields := by
  simp only [← mapM_interpretField_eq_ok_iff, interpretSet_eq]
  cases rs.mapM (interpretField i) with
  | error p => exact iff_of_false nofun nofun
  | ok fs =>
    constructor
    · intro h
      exact ⟨fs, rfl, Except.ok.inj h⟩
    · rintro ⟨gs, h, rfl⟩
      cases h
      rfl

theorem exists_interprets (h : ∀ r ∈ rs, ∃ n, interpret i r.2 = .ok n) :
    ∃ fs, List.Forall₂ (Interprets i) rs fs := by
  induction rs with
  | nil => exact ⟨[], .nil⟩
  | cons r rs ih =>
    obtain ⟨n, hn⟩ := h r List.mem_cons_self
    obtain ⟨fs, hfs⟩ := ih fun u hu => h u (List.mem_cons_of_mem r hu)
    exact ⟨_ :: fs, .cons ⟨n, hn, rfl⟩ hfs⟩

theorem keys_of_interprets (h : List.Forall₂ (Interprets i) rs fs) :
    fs.keys = rs.keys := by
  induction h with
  | nil => rfl
  | cons hf _ ih =>
    obtain ⟨n, -, rfl⟩ := hf
    exact congrArg (_ :: ·) ih

theorem get?_of_interprets {k : String} {rules : Raw}
    (h : List.Forall₂ (Interprets i) rs fs) (hrules : rs.get? k = some rules) :
    ∃ n, interpret i rules = .ok n ∧ fs.get? k = some (isConfirmed rules, n) := by
  induction h with
  | nil => cases hrules
  | @cons r f rs fs hf _ ih =>
    obtain ⟨n, hn, rfl⟩ := hf
    obtain ⟨path, rules'⟩ := r
    by_cases hpath : path = k
    · simp only [Entries.get?, hpath, beq_self_eq_true, if_true, Option.some.injEq] at hrules ⊢
      subst hrules
      exact ⟨n, hn, rfl⟩
    · simp only [Entries.get?, beq_eq_false_iff_ne.2 hpath, if_neg Bool.false_ne_true] at hrules ⊢
      exact ih hrules

theorem twinName_inj {p q : String} (h : twinName p = twinName q) : p = q := by
  simpa [twinName] using h

/-- A twin comes from the confirmed field that it is named after. -/
theorem twin?_eq_some_iff (hkeys : fs.keys.Nodup) {k : String} {t : Node} :
    twin? fs k = some t ↔ ∃ path n, fs.get? path = some (true, n) ∧ k = twinName path ∧ t = confirmation path n := by
  constructor
  · intro h
    obtain ⟨⟨path, confirmed, n⟩, hfind, rfl⟩ := Option.map_eq_some_iff.1 h
    have hname := List.find?_some hfind
    simp only [Bool.and_eq_true, beq_iff_eq] at hname
    obtain ⟨rfl, rfl⟩ := hname
    exact ⟨path, n, Entries.get?_of_mem hkeys (List.mem_of_find?_eq_some hfind), rfl, rfl⟩
  · rintro ⟨path, n, hpath, rfl, rfl⟩
    have hmem := Entries.mem_of_get? hpath
    cases hfind : fs.find? fun f => f.2.1 && twinName f.1 == twinName path with
    | none => exact absurd (List.find?_eq_none.1 hfind _ hmem) (by simp)
    | some f =>
      have hname := List.find?_some hfind
      simp only [Bool.and_eq_true, beq_iff_eq] at hname
      have hf := Entries.get?_of_mem hkeys (List.mem_of_find?_eq_some hfind)
      rw [twinName_inj hname.2, hpath, Option.some.injEq] at hf
      rw [twin?, hfind, Option.map_some, twinName_inj hname.2, ← hf]

theorem nodup_keys_assembled (fs : Entries (Bool × Node)) : (assembled fs).keys.Nodup := by
  induction fs using List.reverseRecOn with
  | nil => exact List.nodup_nil
  | append_singleton fs f ih =>
    obtain ⟨path, confirmed, n⟩ := f
    have hset := Entries.nodup_keys_set path n ih
    rw [assembled, List.foldl_append]
    change (withField (assembled fs) (path, confirmed, n)).keys.Nodup
    cases confirmed with
    | false => exact hset
    | true =>
      simp only [withField, Entries.setDefault, if_true]
      split
      · exact hset
      · exact Entries.nodup_keys_set _ _ hset

/-- A confirmation only adds names. A rule set has fields if and only if each of its paths has a node. Every path of it
then stands for the node of its own rules, wherever it is in the set. The other names are exactly those that confirm a
field and have no rules themselves, and each of them has the kind and the required flag of that field. -/
theorem interpretSet_adds_twins (i : Interpreter Attempt) (rs : Entries Raw) (hkeys : rs.keys.Nodup) :
    ((∃ fields, interpretSet i rs = .ok fields) ↔
      ∀ path rules, rs.get? path = some rules → ∃ n, interpret i rules = .ok n) ∧
    ∀ fields, interpretSet i rs = .ok fields →
      fields.keys.Nodup ∧
      (∀ path rules, rs.get? path = some rules → ∃ n, interpret i rules = .ok n ∧ fields.get? path = some n) ∧
      (∀ name, name ∉ rs.keys → (name ∈ fields.keys ↔
        ∃ path rules, rs.get? path = some rules ∧ isConfirmed rules = true ∧ name = path ++ "_confirmation")) ∧
      ∀ path rules n, rs.get? path = some rules → isConfirmed rules = true → path ++ "_confirmation" ∉ rs.keys →
        interpret i rules = .ok n → ∃ twin, fields.get? (path ++ "_confirmation") = some twin ∧ twin.kind = n.kind ∧
          twin.facets.required = n.facets.required := by
  constructor
  · constructor
    · rintro ⟨fields, hfields⟩ path rules hrules
      obtain ⟨fs, hfs, -⟩ := interpretSet_eq_ok_iff.1 hfields
      obtain ⟨n, hn, -⟩ := get?_of_interprets hfs hrules
      exact ⟨n, hn⟩
    · intro h
      obtain ⟨fs, hfs⟩ := exists_interprets fun r hr => h r.1 r.2 (Entries.get?_of_mem hkeys hr)
      exact ⟨assembled fs, interpretSet_eq_ok_iff.2 ⟨fs, hfs, rfl⟩⟩
  · intro fields hfields
    obtain ⟨fs, hfs, rfl⟩ := interpretSet_eq_ok_iff.1 hfields
    have hnames : fs.keys = rs.keys := keys_of_interprets hfs
    have hfskeys : fs.keys.Nodup := hnames ▸ hkeys
    have hget := get?_assembled hfskeys
    have hother : ∀ name, name ∉ rs.keys → (assembled fs).get? name = twin? fs name := by
      intro name hname
      have hnone : fs.get? name = none := by
        rw [← Option.not_isSome_iff_eq_none, Entries.get?_isSome_iff, hnames]
        exact hname
      rw [hget, hnone]
      rfl
    refine ⟨nodup_keys_assembled fs, ?_, ?_, ?_⟩
    · intro path rules hrules
      obtain ⟨n, hn, hf⟩ := get?_of_interprets hfs hrules
      exact ⟨n, hn, by rw [hget, hf]; rfl⟩
    · intro name hname
      rw [← Entries.get?_isSome_iff, hother name hname, Option.isSome_iff_exists]
      simp only [twin?_eq_some_iff hfskeys]
      constructor
      · rintro ⟨t, path, n, hf, rfl, -⟩
        have hpath : (rs.get? path).isSome := by
          rw [Entries.get?_isSome_iff, ← hnames, ← Entries.get?_isSome_iff, hf]
          rfl
        obtain ⟨rules, hrules⟩ := Option.isSome_iff_exists.1 hpath
        obtain ⟨m, -, hf'⟩ := get?_of_interprets hfs hrules
        obtain ⟨hconfirmed, -⟩ := Prod.mk.inj (Option.some.inj (hf'.symm.trans hf))
        exact ⟨path, rules, hrules, hconfirmed, rfl⟩
      · rintro ⟨path, rules, hrules, hconfirmed, rfl⟩
        obtain ⟨n, -, hf⟩ := get?_of_interprets hfs hrules
        rw [hconfirmed] at hf
        exact ⟨_, path, n, hf, rfl, rfl⟩
    · intro path rules n hrules hconfirmed hname hn
      obtain ⟨m, hm, hf⟩ := get?_of_interprets hfs hrules
      obtain rfl : m = n := Except.ok.inj (hm.symm.trans hn)
      rw [hconfirmed] at hf
      refine ⟨confirmation path m, ?_, by cases m <;> rfl, by cases m <;> rfl⟩
      rw [hother _ hname]
      exact (twin?_eq_some_iff hfskeys).2 ⟨path, m, hf, rfl, rfl⟩

/-- Fields with rules for their confirmation before and after them, one of which is confirmed itself, and one
without. -/
def confirmedRules : Entries Raw := [
  ("email_confirmation", .line "integer|confirmed"), ("email", .line "email|confirmed"),
  ("password", .line "required|array|confirmed"), ("code", .line "confirmed"), ("code_confirmation", .line "boolean")]

theorem interpretSet_adds_twins_confirmedRules :
    confirmedRules.keys.Nodup ∧ ∃ fields, interpretSet (m := Attempt) {} confirmedRules = .ok fields ∧
      (∃ n, interpret (m := Attempt) {} (.line "integer|confirmed") = .ok n ∧
        fields.get? "email_confirmation" = some n) ∧
      (∃ n, interpret (m := Attempt) {} (.line "boolean") = .ok n ∧ fields.get? "code_confirmation" = some n) ∧
      "email_confirmation_confirmation" ∈ fields.keys ∧ "password_confirmation" ∈ fields.keys ∧
      "code_confirmation_confirmation" ∉ fields.keys := by
  have hkeys : confirmedRules.keys.Nodup := by decide +kernel
  obtain ⟨-, hfields⟩ := interpretSet_adds_twins {} confirmedRules hkeys
  have hok : (interpretSet (m := Attempt) {} confirmedRules).isOk = true := by decide +kernel
  cases h : interpretSet (m := Attempt) {} confirmedRules with
  | error p =>
    rw [h] at hok
    cases hok
  | ok fields =>
    obtain ⟨-, hown, hnames, -⟩ := hfields fields h
    refine ⟨hkeys, fields, rfl, hown _ _ rfl, hown _ _ rfl, ?_, ?_, ?_⟩
    · exact (hnames _ (by decide +kernel)).2 ⟨"email_confirmation", _, rfl, by decide +kernel, by decide +kernel⟩
    · exact (hnames _ (by decide +kernel)).2 ⟨"password", _, rfl, by decide +kernel, by decide +kernel⟩
    · intro hmem
      obtain ⟨path, rules, hrules, hconfirmed, hname⟩ := (hnames _ (by decide +kernel)).1 hmem
      obtain rfl : "code_confirmation" = path :=
        twinName_inj ((by decide +kernel : twinName "code_confirmation" = _).trans hname)
      cases hrules
      revert hconfirmed
      decide +kernel

end ApiSchema.Rule
