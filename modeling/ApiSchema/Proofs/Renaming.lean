import ApiSchema.Field.Read
import ApiSchema.Proofs.Pipes

/-!
# Names in another style

A plain name is made of words of small letters and digits, with underscores between them (`isPlainName`). Its words are
found again whatever style it is put into: the underscores or hyphens tell them apart, or the capitals, one of which
starts every word but the first of a name in camel case (`Style.join_injective`). So two plain names stay different in
every style, and fields that are declared under them have different output names (`restyle_ne`).
-/
namespace ApiSchema.Name

open Text

/-! ## Plain words -/

/-- Small letters and digits. -/
def isPlainChar (c : Char) : Bool := c.isLower || c.isDigit

/-- A small letter, and then small letters and digits. -/
def isPlain (w : String) : Bool :=
  match w.toList with
  | [] => false
  | c :: cs => c.isLower && cs.all isPlainChar

/-- Plain words with underscores between them. -/
def isPlainName (name : String) : Bool := (split '_' name).all isPlain

section

variable {c : Char} {w : String}

theorem toNat_lt_of_isPlainChar (h : isPlainChar c = true) : c.toNat < 0x80 := by
  rcases Bool.or_eq_true_iff.1 h with h | h
  · have hle : c.toNat ≤ 0x7A := of_decide_eq_true (Bool.and_eq_true_iff.1 h).2
    omega
  · have hle : c.toNat ≤ 0x39 := of_decide_eq_true (Bool.and_eq_true_iff.1 h).2
    omega

theorem isPlainChar_iff (h : isPlainChar c = true) :
    c ≠ '_' ∧ c ≠ '-' ∧ c.isUpper = false ∧ isLowered c = true := by
  have hc := eq_true_of_ascii (p := fun c => !isPlainChar c || (c != '_' && c != '-' && !c.isUpper && isLowered c))
    (by decide +kernel) (toNat_lt_of_isPlainChar h)
  simpa [h, and_assoc] using hc

theorem toUpper_of_isLower (h : c.isLower = true) :
    titleOf c = [c.toUpper] ∧ c.toUpper.isUpper = true ∧ c.toUpper.toLower = c := by
  have hplain : isPlainChar c = true := Bool.or_eq_true_iff.2 (.inl h)
  have hc := eq_true_of_ascii
    (p := fun c => !c.isLower || (titleOf c == [c.toUpper] && c.toUpper.isUpper && c.toUpper.toLower == c))
    (by decide +kernel) (toNat_lt_of_isPlainChar hplain)
  simpa [h, and_assoc] using hc

theorem isPlainChar_of_mem (hw : isPlain w = true) (hc : c ∈ w.toList) : isPlainChar c = true := by
  unfold isPlain at hw
  cases hlist : w.toList with
  | nil =>
    rw [hlist] at hc
    cases hc
  | cons d ds =>
    rw [hlist] at hw hc
    obtain ⟨hd, hds⟩ := Bool.and_eq_true_iff.1 hw
    rcases List.mem_cons.1 hc with rfl | hc
    · exact Bool.or_eq_true_iff.2 (.inl hd)
    · exact List.all_eq_true.1 hds c hc

theorem ne_empty_of_isPlain (hw : isPlain w = true) : w ≠ "" := by
  rintro rfl
  cases hw

theorem toList_capitalize (hw : isPlain w = true) :
    ∃ c cs, w.toList = c :: cs ∧ c.isLower = true ∧ (∀ d ∈ cs, isPlainChar d = true) ∧
      (capitalize w).toList = c.toUpper :: cs := by
  unfold isPlain at hw
  cases hlist : w.toList with
  | nil =>
    rw [hlist] at hw
    cases hw
  | cons c cs =>
    rw [hlist] at hw
    obtain ⟨hc, hcs⟩ := Bool.and_eq_true_iff.1 hw
    have hplain : ∀ d ∈ cs, isPlainChar d = true := List.all_eq_true.1 hcs
    have hlower : lowerFrom [c] (cs ++ []) = cs ++ lowerFrom (cs.reverse ++ [c]) [] :=
      lowerFrom_append (fun d hd => (isPlainChar_iff (hplain d hd)).2.2.2) []
    rw [List.append_nil] at hlower
    refine ⟨c, cs, rfl, hc, hplain, ?_⟩
    rw [capitalize, hlist]
    dsimp only
    rw [String.toList_ofList, (toUpper_of_isLower hc).1, hlower, lowerFrom, List.append_nil]
    rfl

end

/-! ## Words of a plain name -/

section

variable {ws vs : List String}

theorem separate_eq_self {cs : List Char} (h : ∀ c ∈ cs, c.isUpper = false) : separate cs = cs := by
  induction cs with
  | nil => rfl
  | cons a cs ih =>
    cases cs with
    | nil => rfl
    | cons b cs =>
      obtain ⟨-, hcs⟩ := List.forall_mem_cons.1 h
      have hb : isBoundary a b = false := by
        rw [isBoundary, hcs b List.mem_cons_self]
        exact Bool.and_false _
      rw [separate, hb, if_neg Bool.false_ne_true, ih hcs]

theorem mem_join {sep : String} {c : Char} (hc : c ∈ (join sep ws).toList) :
    c ∈ sep.toList ∨ ∃ w ∈ ws, c ∈ w.toList := by
  unfold join at hc
  induction ws with
  | nil => cases hc
  | cons w ws ih =>
    cases ws with
    | nil => exact .inr ⟨w, List.mem_cons_self, hc⟩
    | cons v ws =>
      rw [String.intercalate_cons_cons, String.toList_append, String.toList_append, List.mem_append,
        List.mem_append] at hc
      rcases hc with (hc | hc) | hc
      · exact .inr ⟨w, List.mem_cons_self, hc⟩
      · exact .inl hc
      · refine (ih hc).imp_right fun ⟨u, hu, hcu⟩ => ⟨u, List.mem_cons_of_mem w hu, hcu⟩

theorem not_mem_of_plain (hws : ∀ w ∈ ws, isPlain w = true) {sep : Char} (hsep : isPlainChar sep = false) :
    ∀ w ∈ ws, sep ∉ w.toList := by
  intro w hw hmem
  exact Bool.false_ne_true (hsep.symm.trans (isPlainChar_of_mem (hws w hw) hmem))

/-- A plain name is in snake case. -/
theorem toSnake_join (hws : ∀ w ∈ ws, isPlain w = true) : toSnake (join "_" ws) = join "_" ws := by
  have hchar : ∀ c ∈ (join "_" ws).toList, c.isUpper = false ∧ c ≠ '-' ∧ isLowered c = true := by
    intro c hc
    rcases mem_join hc with hc | ⟨w, hw, hc⟩
    · rw [List.mem_singleton.1 hc]
      decide +kernel
    · obtain ⟨-, hhyphen, hupper, hlowered⟩ := isPlainChar_iff (isPlainChar_of_mem (hws w hw) hc)
      exact ⟨hupper, hhyphen, hlowered⟩
  have hmap : ((join "_" ws).toList.map fun c => if c == '-' then '_' else c) = (join "_" ws).toList := by
    refine (List.map_congr_left fun c hc => ?_).trans (List.map_id _)
    exact if_neg (by simpa using (hchar c hc).2.1)
  rw [toSnake, separate_eq_self fun c hc => (hchar c hc).1, hmap, String.ofList_toList]
  exact lower_eq_self fun c hc => (hchar c hc).2.2

theorem words_join (hws : ∀ w ∈ ws, isPlain w = true) (hne : ws ≠ []) : words (join "_" ws) = ws := by
  rw [words, toSnake_join hws, split_join rfl (not_mem_of_plain hws (by decide)) hne, List.filter_eq_self]
  intro w hw
  simpa using ne_empty_of_isPlain (hws w hw)

/-! ## Words with capitals -/

/-- A capital, and then characters that are none. -/
def IsBlock (x : List Char) : Prop := ∃ c cs, x = c :: cs ∧ c.isUpper = true ∧ ∀ d ∈ cs, d.isUpper = false

theorem isBlock_capitalize {w : String} (hw : isPlain w = true) : IsBlock (capitalize w).toList := by
  obtain ⟨c, cs, -, hc, hcs, hcapital⟩ := toList_capitalize hw
  exact ⟨c.toUpper, cs, hcapital, (toUpper_of_isLower hc).2.1, fun d hd => (isPlainChar_iff (hcs d hd)).2.2.1⟩

theorem capitalize_inj {w v : String} (hw : isPlain w = true) (hv : isPlain v = true)
    (h : (capitalize w).toList = (capitalize v).toList) : w = v := by
  obtain ⟨c, cs, hwlist, hc, -, hcapital⟩ := toList_capitalize hw
  obtain ⟨d, ds, hvlist, hd, -, hcapital'⟩ := toList_capitalize hv
  rw [hcapital, hcapital'] at h
  obtain ⟨hhead, htail⟩ := List.cons.inj h
  rw [← String.toList_inj, hwlist, hvlist, htail, ← (toUpper_of_isLower hc).2.2, hhead, (toUpper_of_isLower hd).2.2]

section

variable {before before' : List Char} {xs ys : List (List Char)}

/-- What stands before the first block ends at a capital. -/
theorem takeWhile_blocks (hbefore : ∀ d ∈ before, d.isUpper = false) (hxs : ∀ x ∈ xs, IsBlock x) :
    (before ++ xs.flatten).takeWhile (!·.isUpper) = before := by
  have hnone : xs.flatten.takeWhile (!·.isUpper) = [] := by
    cases xs with
    | nil => rfl
    | cons x xs =>
      obtain ⟨c, cs, rfl, hc, -⟩ := hxs x List.mem_cons_self
      rw [List.flatten_cons, List.cons_append, List.takeWhile_cons_of_neg (by simp [hc])]
  rw [List.takeWhile_append_of_pos (by simpa using hbefore), hnone, List.append_nil]

theorem append_blocks_inj (hbefore : ∀ d ∈ before, d.isUpper = false) (hbefore' : ∀ d ∈ before', d.isUpper = false)
    (hxs : ∀ x ∈ xs, IsBlock x) (hys : ∀ y ∈ ys, IsBlock y) (h : before ++ xs.flatten = before' ++ ys.flatten) :
    before = before' ∧ xs.flatten = ys.flatten := by
  have hfirst := congrArg (List.takeWhile (!·.isUpper)) h
  rw [takeWhile_blocks hbefore hxs, takeWhile_blocks hbefore' hys] at hfirst
  rw [hfirst] at h
  exact ⟨hfirst, List.append_cancel_left h⟩

theorem blocks_inj (hxs : ∀ x ∈ xs, IsBlock x) (hys : ∀ y ∈ ys, IsBlock y) (h : xs.flatten = ys.flatten) : xs = ys := by
  induction xs generalizing ys with
  | nil =>
    cases ys with
    | nil => rfl
    | cons y ys =>
      obtain ⟨c, cs, rfl, -, -⟩ := hys y List.mem_cons_self
      cases h
  | cons x xs ih =>
    obtain ⟨⟨c, cs, rfl, -, hcs⟩, hxs'⟩ := List.forall_mem_cons.1 hxs
    cases ys with
    | nil => cases h
    | cons y ys =>
      obtain ⟨⟨d, ds, rfl, -, hds⟩, hys'⟩ := List.forall_mem_cons.1 hys
      rw [List.flatten_cons, List.flatten_cons, List.cons_append, List.cons_append] at h
      obtain ⟨hhead, htail⟩ := List.cons.inj h
      obtain ⟨hblock, hrest⟩ := append_blocks_inj hcs hds hxs' hys' htail
      rw [hhead, hblock, ih hxs' hys' hrest]

end

theorem toList_join_capitalize (ws : List String) :
    (String.join (ws.map capitalize)).toList = (ws.map fun w => (capitalize w).toList).flatten := by
  rw [String.toList_join, List.flatMap_map, ← List.flatMap_def]

theorem forall_isBlock (hws : ∀ w ∈ ws, isPlain w = true) :
    ∀ x ∈ ws.map fun w => (capitalize w).toList, IsBlock x := by
  intro x hx
  obtain ⟨w, hw, rfl⟩ := List.mem_map.1 hx
  exact isBlock_capitalize (hws w hw)

theorem join_capitalize_inj (hws : ∀ w ∈ ws, isPlain w = true) (hvs : ∀ w ∈ vs, isPlain w = true)
    (h : (ws.map fun w => (capitalize w).toList).flatten = (vs.map fun w => (capitalize w).toList).flatten) :
    ws = vs := by
  have hmap := blocks_inj (forall_isBlock hws) (forall_isBlock hvs) h
  clear h
  induction ws generalizing vs with
  | nil => exact (List.map_eq_nil_iff.1 hmap.symm).symm
  | cons w ws ih =>
    cases vs with
    | nil => cases hmap
    | cons v vs =>
      obtain ⟨hw, hws⟩ := List.forall_mem_cons.1 hws
      obtain ⟨hv, hvs⟩ := List.forall_mem_cons.1 hvs
      obtain ⟨hhead, htail⟩ := List.cons.inj hmap
      rw [capitalize_inj hw hv hhead, ih hws hvs htail]

/-- The words of a name are found again in every style. -/
theorem Style.join_injective (s : Style) (hws : ∀ w ∈ ws, isPlain w = true) (hvs : ∀ w ∈ vs, isPlain w = true)
    (hwsne : ws ≠ []) (hvsne : vs ≠ []) (h : s.join ws = s.join vs) : ws = vs := by
  cases s with
  | snake =>
    rw [← split_join (s := "_") rfl (not_mem_of_plain hws (by decide)) hwsne,
      ← split_join (s := "_") rfl (not_mem_of_plain hvs (by decide)) hvsne]
    exact congrArg (split '_') h
  | kebab =>
    rw [← split_join (s := "-") rfl (not_mem_of_plain hws (by decide)) hwsne,
      ← split_join (s := "-") rfl (not_mem_of_plain hvs (by decide)) hvsne]
    exact congrArg (split '-') h
  | camel =>
    obtain ⟨w, ws, rfl⟩ := List.exists_cons_of_ne_nil hwsne
    obtain ⟨v, vs, rfl⟩ := List.exists_cons_of_ne_nil hvsne
    obtain ⟨hw, hws⟩ := List.forall_mem_cons.1 hws
    obtain ⟨hv, hvs⟩ := List.forall_mem_cons.1 hvs
    have hupper : ∀ {u : String}, isPlain u = true → ∀ d ∈ u.toList, d.isUpper = false := fun hu d hd =>
      (isPlainChar_iff (isPlainChar_of_mem hu hd)).2.2.1
    have hlist := congrArg String.toList h
    rw [Style.join, Style.join, String.toList_append, String.toList_append, toList_join_capitalize,
      toList_join_capitalize] at hlist
    obtain ⟨hfirst, hrest⟩ := append_blocks_inj (hupper hw) (hupper hv) (forall_isBlock hws) (forall_isBlock hvs) hlist
    rw [String.toList_inj.1 hfirst, join_capitalize_inj hws hvs hrest]
  | pascal =>
    have hlist := congrArg String.toList h
    rw [Style.join, Style.join, toList_join_capitalize, toList_join_capitalize] at hlist
    exact join_capitalize_inj hws hvs hlist

theorem Style.join_ne_empty (s : Style) (hws : ∀ w ∈ ws, isPlain w = true) (hne : ws ≠ []) : s.join ws ≠ "" := by
  obtain ⟨w, ws, rfl⟩ := List.exists_cons_of_ne_nil hne
  obtain ⟨hw, -⟩ := List.forall_mem_cons.1 hws
  have hempty : ∀ {rest : String}, w ++ rest ≠ "" := fun h => ne_empty_of_isPlain hw (String.append_eq_empty_iff.1 h).1
  have hseparated : ∀ sep, Text.join sep (w :: ws) ≠ "" := by
    intro sep
    cases ws with
    | nil => exact ne_empty_of_isPlain hw
    | cons v ws =>
      rw [Text.join, String.intercalate_cons_cons, String.append_assoc]
      exact hempty
  cases s with
  | snake => exact hseparated "_"
  | kebab => exact hseparated "-"
  | camel => exact hempty
  | pascal =>
    obtain ⟨c, cs, -, -, -, hcapital⟩ := toList_capitalize hw
    intro h
    have hlist := congrArg String.toList h
    rw [Style.join, toList_join_capitalize, List.map_cons, List.flatten_cons, hcapital] at hlist
    cases hlist

theorem underscoreList : "_".toList = ['_'] := rfl

theorem Style.ofName?_name (s : Style) : Style.ofName? s.name = some s := by
  cases s <;> decide

theorem restyle_of_isPlainName (s : Style) {name : String} (h : isPlainName name = true) :
    restyle name (some s.name) = s.join (split '_' name) ∧ split '_' name ≠ [] ∧
      ∀ w ∈ split '_' name, isPlain w = true := by
  have hplain : ∀ w ∈ split '_' name, isPlain w = true := List.all_eq_true.1 h
  have hne : split '_' name ≠ [] := by
    rw [split, splitList_eq_splitOn, ne_eq, List.map_eq_nil_iff]
    exact List.splitOnP_ne_nil _ _
  have hwords : words name = split '_' name := by
    have hjoin := words_join hplain hne
    rwa [join_split underscoreList] at hjoin
  refine ⟨?_, hne, hplain⟩
  rw [restyle, Option.bind_some, Style.ofName?_name]
  dsimp only
  unfold Style.apply
  rw [hwords]
  split
  · rename_i hnil
    exact absurd hnil hne
  · rfl

theorem restyle_injective (s : Style) {x y : String} (hx : isPlainName x = true) (hy : isPlainName y = true)
    (h : restyle x (some s.name) = restyle y (some s.name)) : x = y := by
  obtain ⟨hxjoin, hxne, hxplain⟩ := restyle_of_isPlainName s hx
  obtain ⟨hyjoin, hyne, hyplain⟩ := restyle_of_isPlainName s hy
  rw [hxjoin, hyjoin] at h
  rw [← join_split underscoreList x, ← join_split underscoreList y, s.join_injective hxplain hyplain hxne hyne h]

end

end ApiSchema.Name

namespace ApiSchema.Field

open Name

/-- A declaration of a field under a name, in a class with a style: by a decorator, by an annotation without an alias,
or in a docstring. -/
inductive Declares (style : Option String) (name : String) : Declared → Prop
  | decorated {scope : String} {c : Source.Call} {d : Declared} (hd : ofDecorator? scope c = some d)
      (hname : d.name = name) :
      Declares style name (restyled style d)
  | annotated {direction : Direction} {scope : String} {f : Source.Field} (hname : f.name = name)
      (halias : (ofTyped direction none scope f).otherName = none) :
      Declares style name (ofTyped direction style scope f)
  | documented {docstring : String} {scope : Option String} {d : Declared} (hd : d ∈ inDocstring docstring)
      (hname : d.name = name) : Declares style name { restyled style d with scope }

/-- A decorator and a docstring change the name of a field, an annotation gives it the changed one as an alias. -/
theorem outputName_of_declares {s : Style} {name : String} {d : Declared} (hname : isPlainName name = true)
    (h : Declares (some s.name) name d) : d.outputName = restyle name (some s.name) := by
  cases h with
  | @decorated scope c d hd hd' =>
    obtain ⟨_, -, heq⟩ := Option.bind_eq_some_iff.1 hd
    cases heq
    rw [← hd']
    rfl
  | @annotated direction scope f hf halias =>
    have hother : (ofTyped direction (some s.name) scope f).otherName = styledName? (some s.name) f.name :=
      congrArg (fun a => Option.or a (styledName? (some s.name) f.name)) (Option.or_eq_none_iff.1 halias).1
    obtain ⟨hjoin, hne, hplain⟩ := restyle_of_isPlainName s hname
    have hempty : restyle name (some s.name) ≠ "" := by
      rw [hjoin]
      exact s.join_ne_empty hplain hne
    rw [Declared.outputName, hother, styledName?, hf]
    split
    · rename_i hself
      exact hf.trans (eq_of_beq hself).symm
    · rw [Option.filter_some, if_pos (by simpa using hempty)]
      rfl
  | @documented docstring scope d hd hd' =>
    obtain ⟨_, -, rfl⟩ := List.mem_map.1 hd
    rw [← hd']
    rfl

/-- Two plain names stay different in a style, and fields that are declared under them have different output names. -/
theorem restyle_ne (s : Style) {x y : String} (hx : isPlainName x = true) (hy : isPlainName y = true) (hne : x ≠ y) :
    restyle x (some s.name) ≠ restyle y (some s.name) ∧
      ∀ d e, Declares (some s.name) x d → Declares (some s.name) y e → d.outputName ≠ e.outputName := by
  have hstyled : restyle x (some s.name) ≠ restyle y (some s.name) := fun h => hne (restyle_injective s hx hy h)
  refine ⟨hstyled, fun d e hd he => ?_⟩
  rw [outputName_of_declares hx hd, outputName_of_declares hy he]
  exact hstyled

/-- Words of one letter are told apart by their capitals. -/
theorem restyle_ne_letters : isPlainName "a_b1" = true ∧ isPlainName "ab1" = true ∧
    restyle "a_b1" (some "pascal_case") ≠ restyle "ab1" (some "pascal_case") :=
  have hx : isPlainName "a_b1" = true := by decide +kernel
  have hy : isPlainName "ab1" = true := by decide +kernel
  ⟨hx, hy, (restyle_ne .pascal hx hy (by decide)).1⟩

end ApiSchema.Field
