import ApiSchema.Proofs.Extraction
import ApiSchema.Proofs.Sources
import Mathlib.Data.List.Induction
import Mathlib.Data.Prod.Basic
import Mathlib.Logic.Relation

/-!
# Dictionaries read on demand

The entries of a dictionary can be read when they are needed: what a name stands for is read where the name is taken
over, and the rules of the ancestors where they are asked for (`demands`). Nothing keeps such a reading from running in
a circle except the places in the source. A name is replaced by a dictionary that ends before the name, a dictionary
inside another is smaller than that one, and the ancestors of a class are fewer than the classes of its chain. So every
reading ends, and what it gives are the rules that are listed from the dictionaries in their order
(`reading_terminates`). The places are as they have to be in every class that is read off a text
(`Source.Class.IsRead.isRegular`).
-/
namespace ApiSchema

/-! ## Places in the source -/

namespace Source.Tree

/-- The dictionary that an assignment binds to a name. -/
def binding? (t : Tree) : Option (String × Tree) :=
  match t.form, t.child? .left, t.child? .right with
  | .assignment, some left, some right =>
    if left.form == .identifier && right.form == .dictionary then some (left.text, right) else none
  | _, _, _ => none

variable {t c : Tree} {ts us : List Tree} {start stop : Nat} {f : Form}

theorem isSome_binding?_iff : t.binding?.isSome = true ↔ t.form = .assignment ∧ bindsDictionary t.children = true := by
  unfold binding? bindsDictionary child?
  split
  · rename_i hform hleft hright
    rw [hform, hleft, hright]
    split <;> simp_all
  · rename_i hno
    refine ⟨nofun, fun ⟨hform, hbinds⟩ => ?_⟩
    simp only [Bool.and_eq_true, Option.any_eq_true] at hbinds
    obtain ⟨⟨left, hleft, -⟩, right, hright, -⟩ := hbinds
    exact absurd hright (hno left right hform hleft)

theorem isRegular_iff : t.isRegular = true ↔
    t.span.start ≤ t.span.stop ∧ (t.form = .identifier → t.span.start < t.span.stop) ∧
      (t.binding?.isSome = true → anyHas .assignment t.children = false) ∧
      areRegular t.span.start t.span.stop t.children = true := by
  rw [isSome_binding?_iff]
  cases t
  simp only [isRegular, Bool.and_eq_true, decide_eq_true_eq, Bool.or_eq_true, bne_iff_ne, Bool.not_eq_true', and_assoc,
    span, form, children, imp_iff_not_or, not_and_or, Bool.not_eq_true, ne_eq]

theorem areRegular_cons : areRegular start stop (t :: ts) = true ↔ start ≤ t.span.start ∧ t.span.stop ≤ stop ∧
    t.isRegular = true ∧ areRegular t.span.stop stop ts = true := by
  simp [areRegular, and_assoc]

theorem areRegular_mono {start' : Nat} (hstart : start' ≤ start) (h : areRegular start stop ts = true) :
    areRegular start' stop ts = true := by
  cases ts with
  | nil => rfl
  | cons t ts =>
    obtain ⟨hle, rest⟩ := areRegular_cons.1 h
    exact areRegular_cons.2 ⟨Nat.le_trans hstart hle, rest⟩

theorem areRegular_append {middle : Nat} (hts : areRegular start middle ts = true)
    (hus : areRegular middle stop us = true)
    (hle : middle ≤ stop) (hstart : start ≤ middle) : areRegular start stop (ts ++ us) = true := by
  induction ts generalizing start with
  | nil => exact areRegular_mono hstart hus
  | cons t ts ih =>
    obtain ⟨hlow, hhigh, ht, hrest⟩ := areRegular_cons.1 hts
    exact areRegular_cons.2 ⟨hlow, Nat.le_trans hhigh hle, ht, ih hrest hhigh⟩

theorem of_mem_areRegular (h : areRegular start stop ts = true) (hc : c ∈ ts) :
    start ≤ c.span.start ∧ c.span.stop ≤ stop ∧ c.isRegular = true := by
  induction ts generalizing start with
  | nil => cases hc
  | cons t ts ih =>
    obtain ⟨hlow, hhigh, ht, hrest⟩ := areRegular_cons.1 h
    rcases List.mem_cons.1 hc with rfl | hc
    · exact ⟨hlow, hhigh, ht⟩
    · obtain ⟨hstart, hstop, hregular⟩ := ih hrest hc
      have hle := (isRegular_iff.1 ht).1
      exact ⟨by omega, hstop, hregular⟩

theorem of_mem_children (h : t.isRegular = true) (hc : c ∈ t.children) :
    t.span.start ≤ c.span.start ∧ c.span.stop ≤ t.span.stop ∧ c.isRegular = true :=
  of_mem_areRegular (isRegular_iff.1 h).2.2.2 hc

theorem size_le_sizeAll (hc : c ∈ ts) : c.size ≤ sizeAll ts := by
  induction ts with
  | nil => cases hc
  | cons t ts ih =>
    rw [sizeAll]
    rcases List.mem_cons.1 hc with rfl | hc
    · exact Nat.le_add_right _ _
    · exact Nat.le_trans (ih hc) (Nat.le_add_left _ _)

theorem size_lt_of_mem (hc : c ∈ t.children) : c.size < t.size := by
  have hle := size_le_sizeAll hc
  rw [size_eq t]
  omega

/-! ## The parts of a scope -/

/-- The parts of a tree, instead of the tree, before what comes after it. -/
theorem areRegular_scopeChildren (h : areRegular start stop (t :: ts) = true) :
    areRegular t.span.start stop (t.scopeChildren ++ ts) = true := by
  obtain ⟨-, hstop, ht, hts⟩ := areRegular_cons.1 h
  obtain ⟨hle, -, -, hchildren⟩ := isRegular_iff.1 ht
  unfold scopeChildren
  split
  · exact areRegular_mono hle hts
  · exact areRegular_append hchildren hts hstop hle

theorem of_mem_walkScopeFrom (h : areRegular start stop ts = true) (hc : c ∈ walkScopeFrom ts) :
    start ≤ c.span.start ∧ c.span.stop ≤ stop ∧ c.isRegular = true := by
  fun_induction walkScopeFrom ts generalizing start with
  | case1 => cases hc
  | case2 t pending ih =>
    obtain ⟨hlow, hstop, ht, -⟩ := areRegular_cons.1 h
    rcases List.mem_cons.1 hc with rfl | hc
    · exact ⟨hlow, hstop, ht⟩
    · obtain ⟨hstart, rest⟩ := ih (areRegular_scopeChildren h) hc
      exact ⟨Nat.le_trans hlow hstart, rest⟩

theorem anyHas_append : anyHas f (ts ++ us) = (anyHas f ts || anyHas f us) := by
  induction ts with
  | nil => simp [anyHas]
  | cons t ts ih => simp [anyHas, ih, Bool.or_assoc]

theorem form_ne_of_anyHas (h : anyHas f ts = false) (hc : c ∈ walkScopeFrom ts) : c.form ≠ f := by
  fun_induction walkScopeFrom ts with
  | case1 => cases hc
  | case2 t pending ih =>
    obtain ⟨ht, hpending⟩ := Bool.or_eq_false_iff.1 h
    obtain ⟨form, role, s, text, children⟩ := t
    obtain ⟨hform, hchildren⟩ := Bool.or_eq_false_iff.1 ht
    rcases List.mem_cons.1 hc with rfl | hc
    · exact ne_of_beq_false hform
    · refine ih ?_ hc
      rw [anyHas_append, hpending, Bool.or_false]
      unfold scopeChildren
      split
      · rfl
      · exact hchildren

end Source.Tree

/-- Whether the rules of a class are written in a method, or assigned, as they can be in a text. -/
def Source.Class.isRegular (method : String) (c : Source.Class) : Bool :=
  ((c.methods.get? method).bind (·.body)).all Source.Tree.isRegular &&
    (c.assignments.get? method).all Source.Tree.isRegular

namespace Rule

open Source Building Text Source.Tree

/-! ## Dictionaries bound to names -/

/-- The dictionaries bound to names in a body, in order. -/
abbrev Bindings := List (String × Tree)

variable {bindings : Bindings} {t d body target : Tree} {v : String} {ancestors : List Source.Class}

def bindingsOf (body : Tree) : Bindings := body.walkScope.filterMap binding?

/-- The last dictionary that is bound to a name before the name is used. -/
def lastBefore (bindings : Bindings) (t : Tree) : Option Tree :=
  if t.form == .identifier then
    (bindings.filter fun b => b.1 == t.text && b.2.span.stop ≤ t.span.start).getLast?.map (·.2)
  else none

theorem of_lastBefore (h : lastBefore bindings t = some d) :
    t.form = .identifier ∧ d.span.stop ≤ t.span.start ∧ ∃ name, (name, d) ∈ bindings := by
  unfold lastBefore at h
  split at h
  · rename_i hform
    obtain ⟨⟨name, d⟩, hlast, rfl⟩ := Option.map_eq_some_iff.1 h
    obtain ⟨hmem, hb⟩ := List.mem_filter.1 (List.mem_of_getLast? hlast)
    exact ⟨eq_of_beq hform, of_decide_eq_true (Bool.and_eq_true_iff.1 hb).2, name, hmem⟩
  · cases h

theorem of_binding? {b : String × Tree} (h : t.binding? = some b) :
    t.form = .assignment ∧ b.2 ∈ t.children := by
  unfold binding? at h
  split at h
  · rename_i hform _ hright
    split at h
    · cases h
      exact ⟨hform, List.mem_of_find?_eq_some hright⟩
    · cases h
  · cases h

/-- Dictionaries that end one after the other. -/
structure Bindings.Regular (bindings : Bindings) : Prop where
  sorted : bindings.Pairwise fun a b => a.2.span.stop ≤ b.2.span.stop
  regular : ∀ b ∈ bindings, b.2.isRegular = true

theorem regular_filterMap_binding? {lo hi : Nat} {ts : List Tree} (h : areRegular lo hi ts = true) :
    Bindings.Regular ((walkScopeFrom ts).filterMap binding?) := by
  refine ⟨?_, ?_⟩
  · fun_induction walkScopeFrom ts generalizing lo with
    | case1 => exact .nil
    | case2 t pending ih =>
      have hrest := ih (areRegular_scopeChildren h)
      cases hb : t.binding? with
      | none => rwa [List.filterMap_cons_none hb]
      | some b =>
        rw [List.filterMap_cons_some hb]
        refine .cons (fun b' hb' => ?_) hrest
        obtain ⟨-, -, ht, hpending⟩ := areRegular_cons.1 h
        obtain ⟨t', ht', hbinding⟩ := List.mem_filterMap.1 hb'
        obtain ⟨hform, hmem⟩ := of_binding? hbinding
        rw [walkScopeFrom_append] at ht'
        rcases List.mem_append.1 ht' with ht' | ht'
        · -- No assignment is inside of this one.
          refine absurd hform (form_ne_of_anyHas ?_ ht')
          unfold scopeChildren
          split
          · rfl
          · exact (isRegular_iff.1 ht).2.2.1 (hb ▸ rfl)
        · obtain ⟨hstart, -, hregular⟩ := of_mem_walkScopeFrom hpending ht'
          obtain ⟨hlow, -, hright⟩ := of_mem_children hregular hmem
          have hstop := (of_mem_children ht (of_binding? hb).2).2.1
          have hle := (isRegular_iff.1 hright).1
          omega
  · intro b hb
    obtain ⟨t, ht, hbinding⟩ := List.mem_filterMap.1 hb
    exact (of_mem_children (of_mem_walkScopeFrom h ht).2.2 (of_binding? hbinding).2).2.2

theorem regular_bindingsOf (h : body.isRegular = true) : (bindingsOf body).Regular :=
  regular_filterMap_binding? (isRegular_iff.1 h).2.2.2

/-! ## What bound dictionaries declare -/

variable (inherited : List Declaration) (known : List Bound)

/-- Bound dictionaries with what they declare, each listed from those before it. -/
def boundOf (bindings : Bindings) : List Bound :=
  bindings.foldl (fun known b => known ++ [⟨b.1, b.2.span.stop, declaredIn inherited known b.2.children⟩]) []

theorem boundOf_concat (bindings : Bindings) (b : String × Tree) :
    boundOf inherited (bindings ++ [b]) = boundOf inherited bindings ++
      [⟨b.1, b.2.span.stop, declaredIn inherited (boundOf inherited bindings) b.2.children⟩] := by
  simp [boundOf]

theorem boundIn_eq_boundOf (body : Tree) :
    boundIn inherited body = boundOf inherited (bindingsOf body) := by
  unfold boundIn boundOf bindingsOf
  rw [List.foldl_filterMap]
  refine congrArg (fun step => List.foldl step [] _) (funext fun known => funext fun t => ?_)
  unfold bindStep binding?
  cases t.form with
  | assignment =>
    cases t.child? .left with
    | none => rfl
    | some left =>
      cases t.child? .right with
      | none => rfl
      | some right =>
        dsimp only
        split <;> rfl
  | _ => rfl

theorem boundBefore_concat (new : Bound) (t : Tree) :
    boundBefore (known ++ [new]) t =
      if t.form == .identifier && (new.name == t.text && new.stop ≤ t.span.start) then some new
        else boundBefore known t := by
  unfold boundBefore
  cases hform : t.form == .identifier with
  | false => rfl
  | true =>
    rw [List.filter_append, List.filter_singleton]
    cases hnew : new.name == t.text && decide (new.stop ≤ t.span.start) <;> simp

theorem lastBefore_concat (bindings : Bindings) (b : String × Tree) (t : Tree) :
    lastBefore (bindings ++ [b]) t =
      if t.form == .identifier && (b.1 == t.text && b.2.span.stop ≤ t.span.start) then some b.2
      else lastBefore bindings t := by
  unfold lastBefore
  cases hform : t.form == .identifier with
  | false => rfl
  | true =>
    rw [List.filter_append, List.filter_singleton]
    cases hb : b.1 == t.text && decide (b.2.span.stop ≤ t.span.start) <;> simp

/-! ## Entries -/

/-- What an entry of a dictionary takes over. -/
def splat? : Tree → Option Tree
  | .node .dictionarySplat _ _ _ (target :: _) => some target
  | _ => none

/-- The field that an entry of a dictionary declares. -/
def pair? (t : Tree) : Option Declaration :=
  if t.form == .pair then
    ((t.child? .key).bind stringValue?).map fun key => (key, declaredByValue (t.child? .value))
  else none

def declaredByEntry (t : Tree) : List Declaration :=
  match splat? t with
  | some target => declaredBySplat inherited known target
  | none => (pair? t).toList

theorem declaredIn_cons (t : Tree) (ts : List Tree) :
    declaredIn inherited known (t :: ts) = declaredByEntry inherited known t ++ declaredIn inherited known ts := by
  obtain ⟨form, role, span, text, parts⟩ := t
  cases form with
  | dictionarySplat =>
    cases parts with
    | nil => rfl
    | cons target more => rw [declaredIn]; rfl
  | pair =>
    have hform : ((Source.Tree.node .pair role span text parts).form == .pair) = true := rfl
    rw [declaredIn]
    dsimp only [declaredByEntry, splat?, pair?]
    rw [if_pos hform]
    cases ((Source.Tree.node .pair role span text parts).child? .key).bind stringValue? <;> rfl
  | _ => rfl

theorem declaredIn_eq_flatMap (ts : List Tree) :
    declaredIn inherited known ts = ts.flatMap (declaredByEntry inherited known) := by
  induction ts with
  | nil => rfl
  | cons t ts ih => rw [declaredIn_cons, ih, List.flatMap_cons]

theorem mem_of_splat? (h : splat? t = some target) : target ∈ t.children := by
  unfold splat? at h
  split at h
  · cases h
    exact List.mem_cons_self
  · cases h

/-- What a dictionary takes over. -/
def splats (d : Tree) : List Tree := d.children.filterMap splat?

/-- What a dictionary takes over lies inside of it and is smaller. -/
theorem of_mem_splats (h : target ∈ splats d) : ∃ entry ∈ d.children, target ∈ entry.children := by
  obtain ⟨entry, hentry, hsplat⟩ := List.mem_filterMap.1 h
  exact ⟨entry, hentry, mem_of_splat? hsplat⟩

theorem size_lt_of_mem_splats (h : target ∈ splats d) : target.size < d.size := by
  obtain ⟨entry, hentry, htarget⟩ := of_mem_splats h
  exact Nat.lt_trans (size_lt_of_mem htarget) (size_lt_of_mem hentry)

theorem of_mem_splats_of_isRegular (hd : d.isRegular = true) (h : target ∈ splats d) :
    target.span.stop ≤ d.span.stop ∧ target.isRegular = true := by
  obtain ⟨entry, hentry, htarget⟩ := of_mem_splats h
  obtain ⟨-, hstop, hregular⟩ := of_mem_children hd hentry
  obtain ⟨-, hstop', hregular'⟩ := of_mem_children hregular htarget
  exact ⟨Nat.le_trans hstop' hstop, hregular'⟩

theorem declaredIn_congr {inherited : List Declaration} {known known' : List Bound}
    (h : ∀ target ∈ splats d, declaredBySplat inherited known target = declaredBySplat inherited known' target) :
    declaredIn inherited known d.children = declaredIn inherited known' d.children := by
  rw [declaredIn_eq_flatMap, declaredIn_eq_flatMap]
  refine List.flatMap_congr fun entry hentry => ?_
  unfold declaredByEntry
  cases hsplat : splat? entry with
  | none => rfl
  | some target => exact h target (List.mem_filterMap.2 ⟨entry, hentry, hsplat⟩)

/-- What is taken over: the rules of the ancestors, the entries of a dictionary, or those that a name stands for. -/
theorem declaredBySplat_eq (t : Tree) :
    declaredBySplat inherited known t =
      if startsWith t.text ancestorCall then inherited
      else if t.form == .dictionary then declaredIn inherited known t.children
      else ((boundBefore known t).map (·.declared)).getD [] := by
  obtain ⟨form, role, span, text, children⟩ := t
  unfold declaredBySplat
  split
  · exact (if_pos ‹_›).symm
  · rw [if_neg ‹_›]
    cases form <;> rfl

/-- A dictionary that does not end before what is taken over is not asked for. -/
theorem declaredBySplat_concat {new : Bound} (t : Tree)
    (ht : t.isRegular = true) (hstop : t.span.stop ≤ new.stop) :
    declaredBySplat inherited (known ++ [new]) t = declaredBySplat inherited known t := by
  rw [declaredBySplat_eq, declaredBySplat_eq]
  split
  · rfl
  · split
    · refine declaredIn_congr fun target htarget => ?_
      obtain ⟨hle, hregular⟩ := of_mem_splats_of_isRegular ht htarget
      have hsize := size_lt_of_mem_splats htarget
      exact declaredBySplat_concat target hregular (Nat.le_trans hle hstop)
    · rw [boundBefore_concat, if_neg]
      simp only [Bool.and_eq_true, decide_eq_true_eq, beq_iff_eq]
      rintro ⟨hname, -, hbefore⟩
      have hlt := (isRegular_iff.1 ht).2.1 hname
      omega
termination_by t.size

theorem declaredIn_concat {new : Bound}
    (hd : d.isRegular = true) (hstop : d.span.stop ≤ new.stop) :
    declaredIn inherited (known ++ [new]) d.children = declaredIn inherited known d.children :=
  declaredIn_congr fun target htarget => by
    obtain ⟨hle, hregular⟩ := of_mem_splats_of_isRegular hd htarget
    exact declaredBySplat_concat inherited known target hregular (Nat.le_trans hle hstop)

/-- A name stands for the same entries whether its dictionary is listed from those before it or from all. -/
theorem boundBefore_boundOf (h : bindings.Regular) (t : Tree) :
    (boundBefore (boundOf inherited bindings) t).map (·.declared) =
      (lastBefore bindings t).map fun d => declaredIn inherited (boundOf inherited bindings) d.children := by
  induction bindings using List.reverseRecOn with
  | nil =>
    unfold boundBefore lastBefore
    split <;> rfl
  | append_singleton bs b ih =>
    obtain ⟨hsorted, hregular⟩ := h
    obtain ⟨hbs, -, hle⟩ := List.pairwise_append.1 hsorted
    have ih := ih ⟨hbs, (List.forall_mem_append.1 hregular).1⟩
    have hb := hregular b (List.mem_append_right _ List.mem_cons_self)
    rw [boundOf_concat, boundBefore_concat, lastBefore_concat]
    split
    · exact congrArg some (declaredIn_concat inherited _ hb (Nat.le_refl _)).symm
    · rw [ih]
      refine Option.map_congr fun d hd => ?_
      obtain ⟨-, -, name, hmem⟩ := of_lastBefore hd
      exact (declaredIn_concat inherited _ (hregular _ (List.mem_append_left _ hmem))
        (hle _ hmem _ List.mem_cons_self)).symm

/-! ## Arguments of a call -/

theorem of_mem_positional {p : Tree} (hp : p ∈ (argumentsOf t).positional) :
    ∃ arguments ∈ t.children, p = arguments ∨ p ∈ arguments.children := by
  unfold argumentsOf at hp
  split at hp
  · cases hp
  · rename_i arguments harguments
    refine ⟨arguments, List.mem_of_find?_eq_some harguments, ?_⟩
    split at hp
    · exact .inl (List.mem_singleton.1 hp)
    · refine .inr ?_
      revert hp
      refine List.foldlRecOn (motive := fun acc : Arguments => p ∈ acc.positional → p ∈ arguments.children) _ _
        (fun h => absurd h List.not_mem_nil) fun acc hacc a ha => ?_
      split
      · split <;> exact hacc
      · split
        · exact hacc
        · intro hp
          rcases List.mem_append.1 hp with hp | hp
          · exact hacc hp
          · exact List.mem_singleton.1 hp ▸ ha

/-! ## Readings -/

/-- What is read at one time: the rules of a chain of classes, or a dictionary in a body, with the dictionaries that the
body binds to names and the ancestors of the class. -/
inductive Reading where
  | classes (chain : List Source.Class)
  | display (ancestors : List Source.Class) (bindings : Bindings) (dictionary : Tree)

/-- What has to be read for an entry that a dictionary takes over. -/
def demand? (ancestors : List Source.Class) (bindings : Bindings) (target : Tree) : Option Reading :=
  if startsWith target.text ancestorCall then some (.classes ancestors)
  else if target.form == .dictionary then some (.display ancestors bindings target)
  else (lastBefore bindings target).map (.display ancestors bindings)

/-- The dictionary that a part of a body returns, with its name if it is returned by one. -/
def result? (bindings : Bindings) (t : Tree) : Option (Tree × Option String) :=
  match t.form, t.children with
  | .returnStatement, value :: _ =>
    match lastBefore bindings value with
    | some d => some (d, some value.text)
    | none => if value.form == .dictionary then some (value, none) else none
  | _, _ => none

/-- The first dictionary that a body returns. -/
def firstResult? (body : Tree) : Option (Tree × Option String) := body.walkScope.findSome? (result? (bindingsOf body))

/-- The dictionary that a part of a body merges into a variable. -/
def merged? (v : String) (t : Tree) : Option Tree :=
  match t.form, (argumentsOf t).positional with
  | .call, first :: _ =>
    if t.childText .function == v ++ ".update" && first.form == .dictionary then some first else none
  | _, _ => none

/-- What has to be read for a body. -/
def demandsOfBody (ancestors : List Source.Class) (body : Tree) : List Reading :=
  match firstResult? body with
  | some (d, some v) =>
    .display ancestors (bindingsOf body) d ::
      (body.walkScope.filterMap (merged? v)).map (.display [] (bindingsOf body))
  | some (d, none) => [.display ancestors (bindingsOf body) d]
  | none => []

/-- What has to be read before a reading has its result. -/
def demands (method : String) : Reading → List Reading
  | .classes [] => []
  | .classes (c :: ancestors) =>
    match c.methods.get? method, c.assignments.get? method with
    | some f, _ => (f.body.map (demandsOfBody ancestors)).getD []
    | none, some t => if t.form == .dictionary then [.display ancestors [] t] else [.classes ancestors]
    | none, none => [.classes ancestors]
  | .display ancestors bindings d => (splats d).filterMap (demand? ancestors bindings)

section

variable (read : Reading → Option (Option (List Declaration)))

/-- What an entry of a dictionary declares, where `read` gives what it takes over. -/
def readEntry (ancestors : List Source.Class) (bindings : Bindings) (entry : Tree) : Option (List Declaration) :=
  match splat? entry with
  | some target =>
    match demand? ancestors bindings target with
    | some r => (read r).map (·.getD [])
    | none => some []
  | none => some (pair? entry).toList

/-- What a part of a body adds to a variable. -/
def readUpdate (bindings : Bindings) (v : String) (t : Tree) : Option (List Declaration) :=
  match merged? v t with
  | some first => (read (.display [] bindings first)).map (·.getD [])
  | none => some (updateStep [] v t)

def readBody (ancestors : List Source.Class) (body : Tree) : Option (Option (List Declaration)) :=
  match firstResult? body with
  | some (d, some v) => do
    let declared ← read (.display ancestors (bindingsOf body) d)
    let updates ← body.walkScope.mapM (readUpdate read (bindingsOf body) v)
    return some (declared.getD [] ++ updates.flatten)
  | some (d, none) => read (.display ancestors (bindingsOf body) d)
  | none => some none

/-- The result of a reading, where `read` gives the results of those that it demands. -/
def readBy (method : String) : Reading → Option (Option (List Declaration))
  | .classes [] => some none
  | .classes (c :: ancestors) =>
    match c.methods.get? method, c.assignments.get? method with
    | some f, _ => (f.body.map (readBody read ancestors)).getD (some none)
    | none, some t => if t.form == .dictionary then read (.display ancestors [] t) else read (.classes ancestors)
    | none, none => read (.classes ancestors)
  | .display ancestors bindings d =>
    (d.children.mapM (readEntry read ancestors bindings)).map fun parts => some parts.flatten

end

/-- The result of a reading that goes so deep, if that is deep enough. -/
def readWithin (method : String) : Nat → Reading → Option (Option (List Declaration))
  | 0, _ => none
  | depth + 1, r => readBy (readWithin method depth) method r

/-- What a reading gives: the rules that are listed from the dictionaries in their order. -/
def Reading.declared (method : String) : Reading → Option (List Declaration)
  | .classes chain => declaredByClasses method chain
  | .display ancestors bindings d =>
    let inherited := (declaredByClasses method ancestors).getD []
    some (declaredIn inherited (boundOf inherited bindings) d.children)

/-! ## What is demanded -/

theorem isRegular_of_merged? {first : Tree} (ht : t.isRegular = true) (h : merged? v t = some first) :
    first.isRegular = true := by
  unfold merged? at h
  split at h
  · rename_i hpositional
    split at h
    · cases h
      obtain ⟨arguments, hmem, hfirst⟩ := of_mem_positional (hpositional ▸ List.mem_cons_self)
      have harguments := (of_mem_children ht hmem).2.2
      rcases hfirst with rfl | hfirst
      · exact harguments
      · exact (of_mem_children harguments hfirst).2.2
    · cases h
  · cases h

theorem of_result? {v : Option String} (h : result? bindings t = some (d, v)) :
    (∃ name, (name, d) ∈ bindings) ∨ d ∈ t.children := by
  unfold result? at h
  split at h
  · rename_i value _ _ hchildren
    split at h
    · rename_i hlast
      cases h
      exact .inl (of_lastBefore hlast).2.2
    · split at h
      · cases h
        exact .inr (hchildren ▸ List.mem_cons_self)
      · cases h
  · cases h

theorem isRegular_of_firstResult? {v : Option String} (hbody : body.isRegular = true)
    (h : firstResult? body = some (d, v)) : d.isRegular = true := by
  obtain ⟨t, ht, hresult⟩ := List.exists_of_findSome?_eq_some h
  rcases of_result? hresult with ⟨name, hmem⟩ | hmem
  · exact (regular_bindingsOf hbody).regular _ hmem
  · exact (of_mem_children (of_mem_walkScopeFrom (isRegular_iff.1 hbody).2.2.2 ht).2.2 hmem).2.2

variable {method : String} {r r' : Reading}

def Reading.Regular (method : String) : Reading → Prop
  | .classes chain => ∀ c ∈ chain, c.isRegular method = true
  | .display ancestors bindings d =>
    (∀ c ∈ ancestors, c.isRegular method = true) ∧ bindings.Regular ∧ d.isRegular = true

theorem of_mem_demandsOfBody (h : r ∈ demandsOfBody ancestors body) :
    ∃ ancestors' d, r = .display ancestors' (bindingsOf body) d ∧ ancestors' <:+ ancestors ∧
      (body.isRegular = true → d.isRegular = true) := by
  unfold demandsOfBody at h
  split at h
  · rename_i d v hresult
    rcases List.mem_cons.1 h with rfl | h
    · exact ⟨ancestors, d, rfl, List.suffix_refl _, fun hbody => isRegular_of_firstResult? hbody hresult⟩
    · obtain ⟨first, hfirst, rfl⟩ := List.mem_map.1 h
      obtain ⟨t, ht, hmerged⟩ := List.mem_filterMap.1 hfirst
      refine ⟨[], first, rfl, List.nil_suffix, fun hbody => isRegular_of_merged? ?_ hmerged⟩
      exact (of_mem_walkScopeFrom (isRegular_iff.1 hbody).2.2.2 ht).2.2
  · rename_i d hresult
    obtain rfl := List.mem_singleton.1 h
    exact ⟨ancestors, d, rfl, List.suffix_refl _, fun hbody => isRegular_of_firstResult? hbody hresult⟩
  · cases h

/-- A chain of classes demands the rules of the ancestors, or a dictionary of its first class. -/
theorem of_mem_demands_classes {chain : List Source.Class} (h : r ∈ demands method (.classes chain)) :
    ∃ c ancestors, chain = c :: ancestors ∧ (r = .classes ancestors ∨
      ∃ ancestors' bindings d, r = .display ancestors' bindings d ∧ ancestors' <:+ ancestors ∧
        (c.isRegular method = true → bindings.Regular ∧ d.isRegular = true)) := by
  cases chain with
  | nil => cases h
  | cons c ancestors =>
    refine ⟨c, ancestors, rfl, ?_⟩
    unfold demands at h
    dsimp only at h
    split at h
    · rename_i f hmethod
      cases hbody : f.body with
      | none =>
        rw [hbody] at h
        cases h
      | some body =>
        rw [hbody] at h
        obtain ⟨ancestors', d, rfl, hsuffix, hd⟩ := of_mem_demandsOfBody h
        refine .inr ⟨ancestors', _, d, rfl, hsuffix, fun hc => ?_⟩
        have hregular : body.isRegular = true := by
          simpa [Class.isRegular, hmethod, hbody] using (Bool.and_eq_true_iff.1 hc).1
        exact ⟨regular_bindingsOf hregular, hd hregular⟩
    · rename_i t _ hassigned
      split at h
      · obtain rfl := List.mem_singleton.1 h
        refine .inr
          ⟨ancestors, [], t, rfl, List.suffix_refl _, fun hc => ⟨⟨.nil, fun _ h => absurd h List.not_mem_nil⟩, ?_⟩⟩
        simpa [hassigned] using (Bool.and_eq_true_iff.1 hc).2
      · exact .inl (List.mem_singleton.1 h)
    · exact .inl (List.mem_singleton.1 h)

/-- How a reading goes on from a dictionary: to the ancestors, to a dictionary inside of it, or back to one that is
bound to a name and ends before the name. -/
inductive GoesOn (ancestors : List Source.Class) (bindings : Bindings) (d : Tree) : Reading → Prop
  | up {target : Tree} (htarget : target ∈ splats d) (hcall : startsWith target.text ancestorCall = true) :
      GoesOn ancestors bindings d (.classes ancestors)
  | inside {target : Tree} (htarget : target ∈ splats d) (hform : target.form = .dictionary)
      (hsize : target.size < d.size)
      (hstop : target.span.stop ≤ d.span.stop) : GoesOn ancestors bindings d (.display ancestors bindings target)
  | back {target d' : Tree} (htarget : target ∈ splats d) (hlast : lastBefore bindings target = some d')
      (hbefore : d'.span.stop ≤ target.span.start) (hinside : target.span.start < d.span.stop) :
      GoesOn ancestors bindings d (.display ancestors bindings d')

theorem goesOn_of_mem_demands (hd : d.isRegular = true)
    (h : r ∈ demands method (.display ancestors bindings d)) : GoesOn ancestors bindings d r := by
  obtain ⟨target, htarget, hdemand⟩ := List.mem_filterMap.1 h
  obtain ⟨hstop, hregular⟩ := of_mem_splats_of_isRegular hd htarget
  unfold demand? at hdemand
  split at hdemand
  · rename_i hcall
    cases hdemand
    exact .up htarget hcall
  · split at hdemand
    · rename_i hform
      cases hdemand
      exact .inside htarget (eq_of_beq hform) (size_lt_of_mem_splats htarget) hstop
    · obtain ⟨d', hlast, rfl⟩ := Option.map_eq_some_iff.1 hdemand
      obtain ⟨hname, hbefore, -⟩ := of_lastBefore hlast
      have hlt := (isRegular_iff.1 hregular).2.1 hname
      exact .back htarget hlast hbefore (by omega)

theorem Reading.Regular.demanded (h : r.Regular method) (hr : r' ∈ demands method r) : r'.Regular method := by
  cases r with
  | classes chain =>
    obtain ⟨c, ancestors, rfl, rfl | ⟨ancestors', bindings, d, rfl, hsuffix, hd⟩⟩ := of_mem_demands_classes hr
    · exact (List.forall_mem_cons.1 h).2
    · exact ⟨fun c' hc' => h c' (List.mem_cons_of_mem _ (hsuffix.subset hc')), hd (h c List.mem_cons_self)⟩
  | display ancestors bindings d =>
    obtain ⟨hancestors, hbindings, hd⟩ := h
    cases goesOn_of_mem_demands hd hr with
    | up => exact hancestors
    | inside htarget => exact ⟨hancestors, hbindings, (of_mem_splats_of_isRegular hd htarget).2⟩
    | back _ hlast =>
      obtain ⟨-, -, name, hmem⟩ := of_lastBefore hlast
      exact ⟨hancestors, hbindings, hbindings.regular _ hmem⟩

/-- The classes that are left, the end of the dictionary and its size. -/
def Reading.rank : Reading → Nat × Nat × Nat
  | .classes chain => (2 * chain.length, 0, 0)
  | .display ancestors _ d => (2 * ancestors.length + 1, d.span.stop, d.size)

def Reading.Smaller (r r' : Reading) : Prop := Prod.Lex (· < ·) (Prod.Lex (· < ·) (· < ·)) r.rank r'.rank

theorem wellFounded_smaller : WellFounded Reading.Smaller :=
  InvImage.wf Reading.rank (Prod.lex Nat.lt_wfRel (Prod.lex Nat.lt_wfRel Nat.lt_wfRel)).wf

theorem Reading.Regular.smaller (h : r.Regular method) (hr : r' ∈ demands method r) : r'.Smaller r := by
  cases r with
  | classes chain =>
    obtain ⟨c, ancestors, rfl, rfl | ⟨ancestors', bindings, d, rfl, hsuffix, -⟩⟩ := of_mem_demands_classes hr
    · exact .left _ _ (by simp)
    · have hle := hsuffix.length_le
      exact .left _ _ (by simp; omega)
  | display ancestors bindings d =>
    obtain ⟨-, -, hd⟩ := h
    cases goesOn_of_mem_demands hd hr with
    | up => exact .left _ _ (Nat.lt_succ_self _)
    | inside _ _ hsize hstop =>
      refine .right _ ?_
      rcases Nat.lt_or_eq_of_le hstop with hlt | heq
      · exact .left _ _ hlt
      · rw [heq]
        exact .right _ hsize
    | back _ _ hbefore hinside => exact .right _ (.left _ _ (by omega))

/-! ## What a reading gives -/

theorem mapM_eq_some {α β : Type} {f : α → Option β} {g : α → β} {xs : List α} (h : ∀ x ∈ xs, f x = some (g x)) :
    xs.mapM f = some (xs.map g) := by
  rwa [mapM_eq_some_iff, List.forall₂_map_right_iff, List.forall₂_same]

theorem declared_demand? (method : String) (ancestors : List Source.Class) (h : bindings.Regular)
    (target : Tree) {inherited : List Declaration}
    (hinherited : inherited = (declaredByClasses method ancestors).getD []) :
    ((demand? ancestors bindings target).bind (Reading.declared method)).getD [] =
      declaredBySplat inherited (boundOf inherited bindings) target := by
  subst hinherited
  unfold demand?
  rw [declaredBySplat_eq]
  split
  · rfl
  · split
    · rfl
    · rw [boundBefore_boundOf _ h]
      cases lastBefore bindings target <;> rfl

theorem updateStep_of_merged? {first : Tree} (known : List Bound) (h : merged? v t = some first) :
    updateStep known v t = declaredIn [] known first.children := by
  unfold merged? at h
  split at h
  · rename_i hform hpositional
    split at h
    · rename_i hcondition
      cases h
      unfold updateStep
      rw [hform]
      dsimp only
      rw [hpositional]
      exact if_pos hcondition
    · cases h
  · cases h

theorem updateStep_of_none (known : List Bound) (h : merged? v t = none) :
    updateStep known v t = updateStep [] v t := by
  unfold merged? at h
  unfold updateStep
  cases hform : t.form with
  | call =>
    rw [hform] at h
    cases hpositional : (argumentsOf t).positional with
    | nil => rfl
    | cons first more =>
      rw [hpositional] at h
      dsimp only at h ⊢
      split at h
      · cases h
      · rename_i hcondition
        rw [if_neg hcondition, if_neg hcondition]
  | _ => rfl

theorem declaredByMethod_eq_map (hbody : body.isRegular = true) :
    declaredByMethod inherited body = (firstResult? body).map fun result =>
      declaredIn inherited (boundOf inherited (bindingsOf body)) result.1.children ++
        (result.2.map (updatesOf body)).getD [] := by
  unfold declaredByMethod firstResult?
  rw [List.map_findSome?]
  refine congrArg (fun f => body.walkScope.findSome? f) (funext fun t => ?_)
  unfold returned?
  rw [Function.comp_apply, result?, boundIn_eq_boundOf]
  cases t.form with
  | returnStatement =>
    cases t.children with
    | nil => rfl
    | cons value more =>
      have hbound := boundBefore_boundOf inherited (regular_bindingsOf hbody) value
      dsimp only
      cases hlast : lastBefore (bindingsOf body) value with
      | none =>
        rw [hlast] at hbound
        rw [Option.map_eq_none_iff.1 hbound]
        dsimp only
        split
        · exact congrArg some (List.append_nil _).symm
        · rfl
      | some d =>
        rw [hlast] at hbound
        obtain ⟨bound, hbefore, hdeclared⟩ := Option.map_eq_some_iff.1 hbound
        rw [hbefore]
        exact congrArg (fun ds => some (ds ++ updatesOf body value.text)) hdeclared
  | _ => rfl

section

variable {read : Reading → Option (Option (List Declaration))}

theorem readBody_eq (hbody : body.isRegular = true)
    (hread : ∀ r ∈ demandsOfBody ancestors body, read r = some (r.declared method)) :
    readBody read ancestors body = some (declaredByMethod ((declaredByClasses method ancestors).getD []) body) := by
  rw [declaredByMethod_eq_map _ hbody]
  unfold readBody
  unfold demandsOfBody at hread
  cases hresult : firstResult? body with
  | none => rfl
  | some result =>
    obtain ⟨d, v⟩ := result
    rw [hresult] at hread
    cases v with
    | none =>
      dsimp only
      rw [hread _ List.mem_cons_self]
      exact congrArg (fun ds => some (some ds)) (List.append_nil _).symm
    | some v =>
      have hupdates : body.walkScope.mapM (readUpdate read (bindingsOf body) v) =
          some (body.walkScope.map (updateStep (boundIn [] body) v)) := by
        refine mapM_eq_some fun t ht => ?_
        unfold readUpdate
        cases hmerged : merged? v t with
        | none => rw [updateStep_of_none (boundIn [] body) hmerged]
        | some first =>
          have hfirst := List.mem_filterMap.2 ⟨t, ht, hmerged⟩
          dsimp only
          rw [hread _ (List.mem_cons_of_mem _ (List.mem_map_of_mem hfirst)), updateStep_of_merged? _ hmerged,
            boundIn_eq_boundOf]
          rfl
      dsimp only
      rw [hread _ List.mem_cons_self, hupdates]
      rfl

/-- A reading gives what is listed if those give it that it demands. -/
theorem readBy_eq (h : r.Regular method) (hread : ∀ r' ∈ demands method r, read r' = some (r'.declared method)) :
    readBy read method r = some (r.declared method) := by
  cases r with
  | classes chain =>
    cases chain with
    | nil => rfl
    | cons c ancestors =>
      have hc := h c List.mem_cons_self
      unfold Reading.declared declaredByClasses readBy
      unfold demands at hread
      dsimp only at hread ⊢
      cases hmethod : c.methods.get? method with
      | some f =>
        rw [hmethod] at hread
        cases hbody : f.body with
        | none =>
          dsimp only
          rw [hbody]
          rfl
        | some body =>
          have hregular : body.isRegular = true := by
            simpa [Class.isRegular, hmethod, hbody] using (Bool.and_eq_true_iff.1 hc).1
          dsimp only at hread ⊢
          rw [hbody] at hread ⊢
          exact readBody_eq hregular hread
      | none =>
        rw [hmethod] at hread
        cases hassigned : c.assignments.get? method with
        | none =>
          rw [hassigned] at hread
          exact hread _ List.mem_cons_self
        | some t =>
          rw [hassigned] at hread
          dsimp only at hread ⊢
          split
          · rename_i hform
            rw [if_pos hform] at hread
            exact hread _ List.mem_cons_self
          · rename_i hform
            rw [if_neg hform] at hread
            exact hread _ List.mem_cons_self
  | display ancestors bindings d =>
    obtain ⟨-, hbindings, hd⟩ := h
    unfold readBy
    dsimp only
    rw [mapM_eq_some (g := declaredByEntry ((declaredByClasses method ancestors).getD [])
      (boundOf ((declaredByClasses method ancestors).getD []) bindings)), Option.map_some]
    · exact congrArg (fun ds => some (some ds)) (declaredIn_eq_flatMap _ _ _).symm
    · intro entry hentry
      unfold readEntry declaredByEntry
      cases hsplat : splat? entry with
      | none => rfl
      | some target =>
        have hdeclared := declared_demand? method ancestors hbindings target rfl
        dsimp only
        rw [← hdeclared]
        cases hdemand : demand? ancestors bindings target with
        | none => rfl
        | some r =>
          have htarget := List.mem_filterMap.2 ⟨entry, hentry, hsplat⟩
          dsimp only
          rw [hread r (List.mem_filterMap.2 ⟨target, htarget, hdemand⟩)]
          rfl

end

/-! ## Readings end -/

/-- A reading whose demands end within some depth each ends within one depth more than the greatest of them. -/
theorem exists_depth {P : Nat → Reading → Prop} {rs : List Reading} (h : ∀ r ∈ rs, ∃ depth, ∀ n ≥ depth, P n r) :
    ∃ depth, ∀ r ∈ rs, ∀ n ≥ depth, P n r := by
  induction rs with
  | nil => exact ⟨0, fun _ h => absurd h List.not_mem_nil⟩
  | cons r rs ih =>
    obtain ⟨depth, hr⟩ := h r List.mem_cons_self
    obtain ⟨depth', hrs⟩ := ih (List.forall_mem_cons.1 h).2
    refine ⟨max depth depth', fun r' hr' n hn => ?_⟩
    rcases List.mem_cons.1 hr' with rfl | hr'
    · exact hr n (Nat.le_trans (Nat.le_max_left _ _) hn)
    · exact hrs r' hr' n (Nat.le_trans (Nat.le_max_right _ _) hn)

theorem acc_of_regular (h : r.Regular method) : Acc (fun r' r => r' ∈ demands method r) r := by
  induction r using wellFounded_smaller.induction with
  | _ r ih => exact .intro r fun r' hr' => ih r' (h.smaller hr') (h.demanded hr')

theorem exists_readWithin (h : r.Regular method) :
    ∃ depth, ∀ n ≥ depth, readWithin method n r = some (r.declared method) := by
  induction r using wellFounded_smaller.induction with
  | _ r ih =>
    obtain ⟨depth, hdepth⟩ := exists_depth fun r' hr' => ih r' (h.smaller hr') (h.demanded hr')
    refine ⟨depth + 1, fun n hn => ?_⟩
    obtain ⟨n, rfl⟩ : ∃ m, n = m + 1 := ⟨n - 1, by omega⟩
    exact readBy_eq h fun r' hr' => hdepth r' hr' n (by omega)

/-- What is met on the way of a reading. -/
abbrev Meets (method : String) : Reading → Reading → Prop :=
  Relation.ReflTransGen fun r r' => r' ∈ demands method r

theorem Reading.Regular.meets (h : r.Regular method) (hr : Meets method r r') : r'.Regular method := by
  induction hr with
  | refl => exact h
  | tail _ hlast ih => exact ih.demanded hlast

theorem Reading.Regular.length_le (h : r.Regular method) (hr : Meets method r r') : r'.rank.1 ≤ r.rank.1 := by
  induction hr with
  | refl => exact Nat.le_refl _
  | tail hr hlast ih =>
    refine Nat.le_trans ?_ ih
    have hlex := (h.meets hr).smaller hlast
    rcases (Prod.lex_iff).1 hlex with hlt | ⟨heq, -⟩
    · exact Nat.le_of_lt hlt
    · exact Nat.le_of_eq heq

/-- The rules of a chain of classes can be read on demand. No reading runs in a circle; there is a depth that is enough,
and the result is what is listed. Every dictionary that is met on the way belongs to a class with fewer ancestors than
the chain has classes, and goes on to those ancestors, to a smaller dictionary inside of it, or to one that ends before
the name that stands for it. -/
theorem reading_terminates {chain : List Source.Class} (h : ∀ c ∈ chain, c.isRegular method = true) :
    Acc (fun r' r => r' ∈ demands method r) (.classes chain) ∧
      (∃ depth, ∀ n ≥ depth, readWithin method n (.classes chain) = some (declaredByClasses method chain)) ∧
      ∀ ancestors bindings d, Meets method (.classes chain) (.display ancestors bindings d) →
        ancestors.length < chain.length ∧
          ∀ r ∈ demands method (.display ancestors bindings d), GoesOn ancestors bindings d r := by
  have hregular : (Reading.classes chain).Regular method := h
  refine ⟨acc_of_regular hregular, exists_readWithin hregular, fun ancestors bindings d hmeets => ?_⟩
  have hlength : 2 * ancestors.length + 1 ≤ 2 * chain.length := hregular.length_le hmeets
  exact ⟨by omega, fun r hr => goesOn_of_mem_demands (hregular.meets hmeets).2.2 hr⟩

/-- All rules of the ancestors. -/
def takenUp : Written :=
  whole .dictionarySplat none "**super().rules()" fun start => [leaf .call none "super().rules()" (start + 2)]

/-- All entries of a display. -/
def takenInside (items : List Written) : Written :=
  whole .dictionarySplat none ("**" ++ (display none items 0).text) fun start => [display none items (start + 2)]

/-- A dictionary is returned as it is. -/
def baseRules : List Written := [statement (binding "v" [ruleEntry "c" "string"]), returned "v"]

/-- A dictionary takes over the rules of the ancestors, and the one bound to the same name afterwards takes over
itself. -/
def selfTaking : List Written := [
  statement (binding "v" [takenUp, ruleEntry "a" "required"]),
  statement (binding "v" [taken "v", takenInside [taken "v"]]),
  statement (merging "v" [taken "v", takenUp]),
  returned "v"]

theorem reading_terminates_selfTaking :
    (∀ c ∈ [ruleClass selfTaking, ruleClass baseRules], c.isRegular "rules" = true) ∧
      Acc (fun r' r => r' ∈ demands "rules" r) (.classes [ruleClass selfTaking, ruleClass baseRules]) ∧
      ∃ depth, ∀ n ≥ depth, readWithin "rules" n (.classes [ruleClass selfTaking, ruleClass baseRules]) =
        some (declaredByClasses "rules" [ruleClass selfTaking, ruleClass baseRules]) := by
  have h : ∀ c ∈ [ruleClass selfTaking, ruleClass baseRules], c.isRegular "rules" = true := by
    simp only [List.forall_mem_cons]
    exact ⟨by decide +kernel, by decide +kernel, by simp⟩
  obtain ⟨hacc, hread, -⟩ := reading_terminates h
  exact ⟨h, hacc, hread⟩

end Rule

/-! ## Classes of a text -/

namespace Source

/-- A class of a module that some text is read as. -/
def Class.IsRead (c : Class) : Prop :=
  ∃ bytes name isPackage allowPartial m short,
    readModule bytes name isPackage allowPartial = .ok m ∧ m.classes.get? short = some c

theorem regular_readModule (bytes : List Nat) (name : String) (isPackage allowPartial : Bool) :
    Yields (Module.Over (·.isRegular = true) name isPackage) (readModule bytes name isPackage allowPartial) :=
  over_readModule (fun ht hc => (Tree.of_mem_children ht hc).2.2) (parse (Text.ofBytes bytes)).regular allowPartial

theorem Class.IsRead.isRegular {c : Class} (h : c.IsRead) (method : String) : c.isRegular method = true := by
  obtain ⟨bytes, name, isPackage, allowPartial, m, short, hm, hc⟩ := h
  have hover := ((regular_readModule bytes name isPackage allowPartial m hm).classes short c hc).2
  refine Bool.and_eq_true_iff.2
    ⟨(Option.all_eq_true ..).2 fun body hbody => ?_, (Option.all_eq_true ..).2 fun t ht => ?_⟩
  · obtain ⟨f, hf, hbody⟩ := Option.bind_eq_some_iff.1 hbody
    exact hover.methods method f hf body hbody
  · exact hover.assignments method t ht

end Source

/-- Whatever the texts say, the rules of their classes can be read on demand. -/
theorem Rule.reading_of_isRead {chain : List Source.Class} (h : ∀ c ∈ chain, c.IsRead) (method : String) :
    Acc (fun r' r => r' ∈ demands method r) (.classes chain) ∧
      ∃ depth, ∀ n ≥ depth, readWithin method n (.classes chain) = some (declaredByClasses method chain) := by
  have hregular : (Reading.classes chain).Regular method := fun c hc => (h c hc).isRegular method
  exact ⟨acc_of_regular hregular, exists_readWithin hregular⟩

end ApiSchema
