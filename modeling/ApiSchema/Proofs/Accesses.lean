import ApiSchema.Proofs.Building
import ApiSchema.Proofs.Faults
import ApiSchema.Proofs.Pipes
import Mathlib.Data.List.Induction

/-!
# Reads of a request

A body takes a field of its request by its key (`Takes`), or asks for it (`Asks`). The fields of the request are those
that it reads, and a field is required if the first read takes it by its key (`requestFields_required_iff`). So a field
that is asked for first and taken later is not required (`requestFields_asked_first`).

A default that is a literal without a value ends the reading, if the field is not known by then (`LacksDefault`).
-/
namespace ApiSchema

variable {α β : Type}

/-- An attempt that comes to a result, of which something holds. -/
def Settles (P : α → Prop) (x : Attempt α) : Prop := ∃ a, x = .ok a ∧ P a

namespace Settles

variable {P : α → Prop} {Q : β → Prop}

theorem pure {a : α} (h : P a) : Settles P (pure a) := ⟨a, rfl, h⟩

theorem bind {x : Attempt α} {f : α → Attempt β} (hx : Settles P x) (hf : ∀ a, P a → Settles Q (f a)) :
    Settles Q (x >>= f) := by
  obtain ⟨a, rfl, ha⟩ := hx
  exact hf a ha

theorem mono {P' : α → Prop} {x : Attempt α} (hx : Settles P x) (h : ∀ a, P a → P' a) : Settles P' x := by
  obtain ⟨a, ha, hP⟩ := hx
  exact ⟨a, ha, h a hP⟩

end Settles

/-- Attempts that settle. -/
def settling : Weave Unit fun _ => Attempt where
  Meets _ := False
  Rel R x := Settles (fun a => R fun _ => a) (x ())
  pure h := Settles.pure h
  bind hx hf := Settles.bind hx fun _ ha => hf _ ha
  mono hx h := Settles.mono hx fun _ ha => h _ ha
  lifted {_ x} h := by
    cases x with
    | ok a => exact .pure (.intro trivial)
    | error p => exact (h p rfl).elim

/-! ## Nodes that can always be built -/

/-- A draft of a kind other than a union can be built with any facets. -/
theorem settles_ofKind {kind : Kind} (h : kind ≠ .union) (format : Option Value) (change : Facets → Facets) :
    Settles (fun n => n.facets = change (Draft.ofKind kind format).facets)
      (liftM { Draft.ofKind kind format with facets := change (Draft.ofKind kind format).facets }.build) := by
  rcases kind with k | _ | _ | _
  · exact ⟨_, rfl, rfl⟩
  · exact ⟨_, rfl, rfl⟩
  · exact ⟨_, rfl, rfl⟩
  · exact absurd rfl h

namespace TypeExpr

variable {t : TypeTables}

theorem settles_namedSchema (ht : ¬ t.HasUnion) (name : String) :
    Settles Node.Worded (namedSchema (m := Attempt) t none name) := by
  unfold namedSchema
  dsimp only
  split
  · rename_i kind format hget
    have hkind : kind ≠ .union := fun h => ht ⟨_, _, h ▸ hget⟩
    obtain ⟨n, hn, hfacets⟩ := settles_ofKind hkind (format.map .str) id
    exact ⟨n, hn, worded_of_none (by rw [hfacets]; cases kind <;> rfl)⟩
  · repeat' split
    all_goals exact ⟨_, rfl, worded_of_none rfl⟩

theorem settles_schemaOf (ht : ¬ t.HasUnion) (e : Option TypeExpr) :
    Settles (fun _ => True) (schemaOf (m := Attempt) t none e) := by
  have hnamed : ∀ name, settling.Rel (Shaped fun _ => True) fun _ => namedSchema t none name := fun name =>
    (settles_namedSchema ht name).mono fun _ h => Shaped.const h
  exact Settles.mono (schemaOf_rel settling (fun _ _ _ _ => trivial) hnamed e) fun _ _ => trivial

end TypeExpr

namespace Infer

open Source Text

variable {names : Name.Rules} {types : TypeTables}

theorem settles_accessedNode (hnames : ¬ Shape.HasUnion names) (key holder : String) (required : Bool) :
    Settles (fun n => n.facets.required = required) (accessedNode names key holder required) := by
  unfold accessedNode
  split
  · exact ⟨_, rfl, rfl⟩
  · unfold Name.Rules.field Name.Rules.fieldDraft
    split
    · rename_i rule hrule
      have hkind : rule.kind ≠ .union := fun h => hnames (.inl ⟨rule, List.mem_of_find?_eq_some hrule, h⟩)
      obtain ⟨n, hn, hfacets⟩ := settles_ofKind hkind (rule.format.map .str) fun f => { f with required }
      exact ⟨n, hn, congrArg Facets.required hfacets⟩
    · exact ⟨_, rfl, rfl⟩

theorem required_nodeOfDefault {v : Value} {n : Node} (h : nodeOfDefault v = some n) : n.facets.required = false := by
  unfold nodeOfDefault at h
  split at h <;> cases h <;> rfl

/-- The literal that stands for a field that is missing, if a call looks at one. -/
def fallback? (method : String) (arguments : Arguments) : Option Source.Tree :=
  if method == "getlist" || method == "get_list" || arguments.keywords.has "type" then none
  else (arguments.keywords.get? "default").or arguments.positional[1]?

/-- A field that is asked for is not required. Its node can be built unless a literal that is looked at has no value. -/
theorem settles_readNode (hnames : ¬ Shape.HasUnion names) (htypes : ¬ types.HasUnion) {key holder method : String}
    {arguments : Arguments} (hfallback : ∀ d ∈ fallback? method arguments, ∃ v, literalValue d = .ok v) :
    Settles (fun n => n.facets.required = false) (readNode names types key holder method arguments) := by
  unfold readNode
  split
  · exact (settles_accessedNode hnames key holder false).bind fun _ _ => .pure rfl
  · rename_i hmethod
    split
    · refine (TypeExpr.settles_schemaOf htypes _).bind fun n _ => .pure ?_
      simp [Node.withRequired, Node.mapFacets]
    · rename_i htype
      have hdefault : fallback? method arguments =
          (arguments.keywords.get? "default").or arguments.positional[1]? := by
        simp_all [fallback?, Entries.has]
      rw [hdefault] at hfallback
      have hnode : Settles (fun o => ∀ n ∈ o, n.facets.required = false)
          (defaultNode ((arguments.keywords.get? "default").or arguments.positional[1]?)) := by
        cases hd : (arguments.keywords.get? "default").or arguments.positional[1]? with
        | none =>
          refine ⟨none, rfl, ?_⟩
          intro n hn
          cases hn
        | some d =>
          obtain ⟨v, hv⟩ := hfallback d hd
          exact ⟨nodeOfDefault v, by simp only [defaultNode, hv]; rfl, fun n hn => required_nodeOfDefault hn⟩
      refine hnode.bind fun o ho => ?_
      cases o with
      | none => exact settles_accessedNode hnames key holder false
      | some n => exact .pure (ho n rfl)

/-- A literal that has no value but is looked at ends the reading. -/
theorem readNode_of_error {key holder method : String} {arguments : Arguments} {d : Source.Tree} {f : Fault}
    (hd : fallback? method arguments = some d) (hf : literalValue d = .error f) :
    readNode names types key holder method arguments = .error (.fault f) := by
  unfold fallback? at hd
  split at hd
  · cases hd
  · rename_i h
    obtain ⟨hmethod, htype⟩ : ¬ (method == "getlist" || method == "get_list") = true ∧
        arguments.keywords.get? "type" = none := by simpa [Entries.has] using h
    unfold readNode
    rw [if_neg hmethod, htype]
    simp only [hd, defaultNode, hf]
    rfl

/-! ## Accesses -/

/-- How a field is read: by its key, or by a call that asks for it. -/
inductive Access where
  | taken
  | asked
deriving DecidableEq

/-- A part of a body takes a field of the request by its key. -/
structure Takes (key : String) (t : Source.Tree) : Prop where
  form : t.form = .subscript
  holder : isRequestHolder (t.childText .value) = true
  field : (t.child? .subscript).bind stringValue? = some key

/-- A part of a body asks for a field of the request. -/
structure Asks (key : String) (t : Source.Tree) : Prop where
  form : t.form = .call
  callee : ∃ holder method, t.childText .function = holder ++ "." ++ method ∧ isRequestHolder holder = true ∧
    method ∈ accessorMethods
  field : (argumentsOf t).positional.head?.bind stringValue? = some key

/-- Whether what is called is an accessor of the request. -/
def isAccessor (callee : String) : Bool :=
  accessorMethods.contains (cutLast '.' callee).2 && isRequestHolder ((cutLast '.' callee).1.getD "")

theorem cutLast_append {sep : Char} (head : List Char) {tail : List Char} (h : sep ∉ tail) :
    cutLast sep (String.ofList (head ++ sep :: tail)) = (some (String.ofList head), String.ofList tail) := by
  have hcut : cutList sep (tail.reverse ++ sep :: head.reverse) = (tail.reverse, some head.reverse) :=
    cutList_append_cons (by simpa using h)
  simp [cutLast, hcut]

theorem eq_append_of_cutLast {sep : Char} {s head : String} (h : (cutLast sep s).1 = some head) :
    s.toList = head.toList ++ sep :: (cutLast sep s).2.toList := by
  by_cases hsep : sep ∈ s.toList.reverse
  · obtain ⟨tail, front, hs, htail⟩ := List.eq_append_cons_of_mem hsep
    have hlist : s.toList = front.reverse ++ sep :: tail.reverse := by
      rw [← List.reverse_reverse s.toList, hs]
      simp
    have hcut := cutLast_append front.reverse (by simpa using htail : sep ∉ tail.reverse)
    rw [← hlist, String.ofList_toList] at hcut
    rw [hcut] at h ⊢
    cases h
    simpa using hlist
  · simp [cutLast, cutList_of_not_mem hsep] at h

theorem isAccessor_iff {callee : String} : isAccessor callee = true ↔
    ∃ holder method, callee = holder ++ "." ++ method ∧ isRequestHolder holder = true ∧ method ∈ accessorMethods := by
  constructor
  · intro h
    obtain ⟨hmethod, hholder⟩ := Bool.and_eq_true_iff.1 h
    cases hhead : (cutLast '.' callee).1 with
    | none =>
      rw [hhead] at hholder
      exact absurd hholder (by decide +kernel)
    | some head =>
      rw [hhead] at hholder
      refine ⟨head, (cutLast '.' callee).2, ?_, hholder, by simpa using hmethod⟩
      rw [← String.toList_inj, eq_append_of_cutLast hhead]
      simp
  · rintro ⟨holder, method, rfl, hholder, hmethod⟩
    have hdots : ∀ m ∈ accessorMethods, '.' ∉ m.toList := by decide +kernel
    have hcut := cutLast_append holder.toList (hdots method hmethod)
    have hcallee : String.ofList (holder.toList ++ '.' :: method.toList) = holder ++ "." ++ method := by
      rw [← String.toList_inj]
      simp
    rw [hcallee, String.ofList_toList, String.ofList_toList] at hcut
    simp [isAccessor, hcut, hholder, hmethod]

/-- The field that a part of a body reads, and how. -/
def access? (t : Source.Tree) : Option (String × Access) :=
  match t.form with
  | .subscript =>
    if isRequestHolder (t.childText .value) then ((t.child? .subscript).bind stringValue?).map (·, .taken) else none
  | .call =>
    if isAccessor (t.childText .function) then ((argumentsOf t).positional.head?.bind stringValue?).map (·, .asked)
    else none
  | _ => none

section

variable {t : Source.Tree} {key : String}

theorem access?_eq_taken_iff : access? t = some (key, .taken) ↔ Takes key t := by
  constructor
  · intro h
    unfold access? at h
    split at h
    · rename_i hform
      split at h
      · rename_i hholder
        obtain ⟨k, hfield, hk⟩ := Option.map_eq_some_iff.1 h
        cases hk
        exact ⟨hform, hholder, hfield⟩
      · cases h
    · split at h
      · obtain ⟨k, -, hk⟩ := Option.map_eq_some_iff.1 h
        cases hk
      · cases h
    · cases h
  · rintro ⟨hform, hholder, hfield⟩
    simp only [access?, hform, hholder, hfield, if_true, Option.map_some]

instance : Decidable (Takes key t) := decidable_of_iff _ access?_eq_taken_iff

theorem access?_eq_asked_iff : access? t = some (key, .asked) ↔ Asks key t := by
  constructor
  · intro h
    unfold access? at h
    split at h
    · split at h
      · obtain ⟨k, -, hk⟩ := Option.map_eq_some_iff.1 h
        cases hk
      · cases h
    · rename_i hform
      split at h
      · rename_i haccessor
        obtain ⟨k, hfield, hk⟩ := Option.map_eq_some_iff.1 h
        cases hk
        exact ⟨hform, isAccessor_iff.1 haccessor, hfield⟩
      · cases h
    · cases h
  · rintro ⟨hform, hcallee, hfield⟩
    simp only [access?, hform, isAccessor_iff.2 hcallee, hfield, if_true, Option.map_some]

end

/-- The fields that a body reads, in order. -/
def accessesIn (body : Source.Tree) : List (String × Access) := body.walkScope.filterMap access?

/-- The literal that a call looks at for a field that is missing. -/
def default? (t : Source.Tree) : Option Source.Tree := fallback? (lastSegment (t.childText .function)) (argumentsOf t)

/-- The fields are those of some accesses, and each is required if it was taken at first. -/
def Agrees (fields : Entries Node) (accesses : List (String × Access)) : Prop :=
  ∀ key, (fields.get? key).map (·.facets.required) = (Entries.get? accesses key).map (· == .taken)

section

variable {fields : Entries Node} {accesses : List (String × Access)} {t : Source.Tree} {key : String} {a : Access}

theorem Agrees.has (h : Agrees fields accesses) (key : String) :
    fields.has key = (Entries.get? accesses key).isSome := by
  have hkey := congrArg Option.isSome (h key)
  simpa [Entries.has] using hkey

/-- A field that is known already is not read again. -/
theorem Agrees.again (h : Agrees fields accesses) (hkey : fields.has key = true) :
    Agrees fields (accesses ++ [(key, a)]) := by
  intro k
  rw [h k, Entries.get?_append]
  by_cases hk : key = k
  · subst hk
    obtain ⟨b, hb⟩ := Option.isSome_iff_exists.1 ((h.has key).symm.trans hkey)
    simp [hb]
  · simp [Entries.get?, hk]

theorem Agrees.set (h : Agrees fields accesses) (hkey : fields.has key = false) {n : Node}
    (hn : n.facets.required = (a == .taken)) : Agrees (fields.set key n) (accesses ++ [(key, a)]) := by
  intro k
  rw [Entries.get?_set, Entries.get?_append]
  by_cases hk : key = k
  · subst hk
    have hnone : Entries.get? accesses key = none := by simpa [h.has key] using hkey
    simp [hnone, Entries.get?, hn]
  · simpa [Entries.get?, hk] using h k

theorem withCall_eq : withCall names types fields t =
    if isAccessor (t.childText .function) then
      match (argumentsOf t).positional.head?.bind stringValue? with
      | some key =>
        if fields.has key then .ok fields else
          readNode names types key ((cutLast '.' (t.childText .function)).1.getD "")
            (lastSegment (t.childText .function)) (argumentsOf t) >>= fun n => .ok (fields.set key n)
      | none => .ok fields
    else .ok fields := by
  have hcond : (!accessorMethods.contains (cutLast '.' (t.childText .function)).2 ||
      !isRequestHolder ((cutLast '.' (t.childText .function)).1.getD "")) = !isAccessor (t.childText .function) := by
    simp [isAccessor]
  unfold withCall
  dsimp only
  rw [hcond]
  cases isAccessor (t.childText .function) <;> rfl

theorem withPart_of_none (h : access? t = none) : withPart names types fields t = .ok fields := by
  unfold access? at h
  unfold withPart
  split at h
  · rename_i hform
    rw [hform]
    dsimp only
    unfold withElement
    split at h
    · rw [Option.map_eq_none_iff.1 h]
      rfl
    · rename_i hholder
      dsimp only
      split
      · exact if_neg hholder
      · rfl
  · rename_i hform
    rw [hform]
    dsimp only
    rw [withCall_eq]
    split at h
    · rename_i haccessor
      rw [if_pos haccessor, Option.map_eq_none_iff.1 h]
    · rename_i haccessor
      exact if_neg haccessor
  · split
    · contradiction
    · contradiction
    · rfl

theorem withPart_of_takes (h : Takes key t) : withPart names types fields t =
    accessedNode names key (t.childText .value) true >>= fun n => .ok (fields.setDefault key n) := by
  unfold withPart
  rw [h.form]
  dsimp only
  unfold withElement
  dsimp only
  rw [h.field]
  exact if_pos h.holder

theorem withPart_of_asks (h : Asks key t) : withPart names types fields t = if fields.has key then .ok fields else
    readNode names types key ((cutLast '.' (t.childText .function)).1.getD "") (lastSegment (t.childText .function))
      (argumentsOf t) >>= fun n => .ok (fields.set key n) := by
  unfold withPart
  rw [h.form]
  dsimp only
  rw [withCall_eq, if_pos (isAccessor_iff.2 h.callee), h.field]

/-- A part of a body asks for a field that is not known yet, with a literal that has no value. -/
def LacksValue (accesses : List (String × Access)) (t : Source.Tree) : Prop :=
  ∃ key d f, Asks key t ∧ Entries.get? accesses key = none ∧ default? t = some d ∧ literalValue d = .error f

/-- One more part of a body is one more access, unless it asks with a literal that has no value. -/
theorem settles_withPart (hnames : ¬ Shape.HasUnion names) (htypes : ¬ types.HasUnion) (h : Agrees fields accesses)
    (hvalue : ¬ LacksValue accesses t) :
    Settles (Agrees · (accesses ++ (access? t).toList)) (withPart names types fields t) := by
  rcases haccess : access? t with _ | ⟨key, a⟩
  · rw [withPart_of_none haccess]
    exact ⟨fields, rfl, by simpa using h⟩
  · rw [Option.toList_some]
    cases a with
    | taken =>
      rw [withPart_of_takes (access?_eq_taken_iff.1 haccess)]
      refine (settles_accessedNode hnames key _ true).bind fun n hn => ⟨_, rfl, ?_⟩
      unfold Entries.setDefault
      split
      · exact h.again ‹_›
      · exact h.set (Bool.eq_false_iff.2 ‹_›) hn
    | asked =>
      have hasks := access?_eq_asked_iff.1 haccess
      rw [withPart_of_asks hasks]
      cases hknown : fields.has key with
      | true => exact ⟨fields, rfl, h.again hknown⟩
      | false =>
        have hnone : Entries.get? accesses key = none := by simpa [h.has key] using hknown
        have hdefault : ∀ d ∈ default? t, ∃ v, literalValue d = .ok v := by
          intro d hd
          cases hv : literalValue d with
          | ok v => exact ⟨v, rfl⟩
          | error f => exact absurd ⟨key, d, f, hasks, hnone, hd, hv⟩ hvalue
        exact (settles_readNode hnames htypes hdefault).bind fun n hn => ⟨_, rfl, h.set hknown hn⟩

theorem withPart_of_lacksValue (h : Agrees fields accesses) (hvalue : LacksValue accesses t) :
    ∃ f, withPart names types fields t = .error (.fault f) := by
  obtain ⟨key, d, f, hasks, hnone, hd, hf⟩ := hvalue
  have hknown : fields.has key = false := by simp [h.has key, hnone]
  refine ⟨f, ?_⟩
  rw [withPart_of_asks hasks, hknown, readNode_of_error hd hf]
  rfl

end

/-- Some part of a body asks for a field that was not read before, with a literal that has no value. -/
def LacksDefault (ts : List Source.Tree) : Prop :=
  ∃ before t after, ts = before ++ t :: after ∧ LacksValue (before.filterMap access?) t

theorem lacksDefault_concat {ts : List Source.Tree} {t : Source.Tree} :
    LacksDefault (ts ++ [t]) ↔ LacksDefault ts ∨ LacksValue (ts.filterMap access?) t := by
  constructor
  · rintro ⟨before, u, after, hts, hu⟩
    rcases List.eq_nil_or_concat after with rfl | ⟨after, v, rfl⟩
    · obtain ⟨rfl, hut⟩ := List.append_inj' hts rfl
      cases hut
      exact .inr hu
    · have hsplit : ts ++ [t] = (before ++ u :: after) ++ [v] := by simpa using hts
      obtain ⟨rfl, -⟩ := List.append_inj' hsplit rfl
      exact .inl ⟨before, u, after, rfl, hu⟩
  · rintro (⟨before, u, after, rfl, hu⟩ | hu)
    · exact ⟨before, u, after ++ [t], by simp, hu⟩
    · exact ⟨ts, t, [], rfl, hu⟩

/-- After some parts of a body the fields are those of the accesses in them. -/
theorem settles_foldlM_withPart (hnames : ¬ Shape.HasUnion names) (htypes : ¬ types.HasUnion) (ts : List Source.Tree) :
    (¬ LacksDefault ts ∧ Settles (Agrees · (ts.filterMap access?)) (ts.foldlM (withPart names types) [])) ∨
      (LacksDefault ts ∧ ∃ f, ts.foldlM (withPart names types) [] = .error (.fault f)) := by
  induction ts using List.reverseRecOn with
  | nil =>
    refine .inl ⟨?_, [], rfl, fun key => rfl⟩
    rintro ⟨before, t, after, hts, -⟩
    simp at hts
  | append_singleton ts t ih =>
    have hrun : (ts ++ [t]).foldlM (withPart names types) [] =
        ts.foldlM (withPart names types) [] >>= (withPart names types · t) := by simp
    have haccesses : (ts ++ [t]).filterMap access? = ts.filterMap access? ++ (access? t).toList := by
      rw [List.filterMap_append, List.filterMap_cons]
      cases access? t <;> rfl
    rw [hrun, haccesses, lacksDefault_concat]
    rcases ih with ⟨hdefault, fields, hfields, hagrees⟩ | ⟨hdefault, f, hf⟩
    · rw [hfields]
      by_cases hvalue : LacksValue (ts.filterMap access?) t
      · exact .inr ⟨.inr hvalue, withPart_of_lacksValue hagrees hvalue⟩
      · exact .inl ⟨not_or.2 ⟨hdefault, hvalue⟩, settles_withPart hnames htypes hagrees hvalue⟩
    · rw [hf]
      exact .inr ⟨.inl hdefault, f, rfl⟩

/-- A field is taken by its key before anything asks for it. -/
def TakenFirst (key : String) (ts : List Source.Tree) : Prop :=
  ∃ before t after, ts = before ++ t :: after ∧ Takes key t ∧ ∀ u ∈ before, ¬ Asks key u

section

variable {ts : List Source.Tree} {t : Source.Tree} {key : String}

theorem takenFirst_cons : TakenFirst key (t :: ts) ↔ Takes key t ∨ (¬ Asks key t ∧ TakenFirst key ts) := by
  constructor
  · rintro ⟨before, u, after, hts, hu, hbefore⟩
    cases before with
    | nil =>
      cases hts
      exact .inl hu
    | cons v before =>
      cases hts
      obtain ⟨hv, hbefore⟩ := List.forall_mem_cons.1 hbefore
      exact .inr ⟨hv, before, u, after, rfl, hu, hbefore⟩
  · rintro (ht | ⟨ht, before, u, after, rfl, hu, hbefore⟩)
    · exact ⟨[], t, ts, rfl, ht, nofun⟩
    · exact ⟨t :: before, u, after, rfl, hu, List.forall_mem_cons.2 ⟨ht, hbefore⟩⟩

theorem get?_accesses_eq_taken_iff : Entries.get? (ts.filterMap access?) key = some .taken ↔ TakenFirst key ts := by
  induction ts with
  | nil => simp [Entries.get?, TakenFirst]
  | cons t ts ih =>
    rw [takenFirst_cons, ← access?_eq_taken_iff, ← access?_eq_asked_iff, ← ih, List.filterMap_cons]
    rcases access? t with _ | ⟨k, a⟩
    · simp
    · by_cases hk : k = key
      · cases a <;> simp [Entries.get?, hk]
      · simp [Entries.get?, hk]

theorem isSome_get?_accesses : (Entries.get? (ts.filterMap access?) key).isSome = true ↔
    ∃ t ∈ ts, Takes key t ∨ Asks key t := by
  induction ts with
  | nil => simp [Entries.get?]
  | cons t ts ih =>
    rw [List.exists_mem_cons_iff, ← ih, ← access?_eq_taken_iff, ← access?_eq_asked_iff, List.filterMap_cons]
    rcases access? t with _ | ⟨k, a⟩
    · simp
    · by_cases hk : k = key
      · cases a <;> simp [Entries.get?, hk]
      · simp [Entries.get?, hk]

end

/-- The fields of a request are those that a body reads. A field is required just if the body takes it by its key before
it asks for it. There are no fields if a literal without a value stands for a field that is asked for first. -/
theorem requestFields_required_iff (hnames : ¬ Shape.HasUnion names) (htypes : ¬ types.HasUnion) (body : Source.Tree) :
    (¬ LacksDefault body.walkScope ∧ ∃ fields, requestFields names types body = .ok fields ∧
      ∀ key, (fields.has key = true ↔ ∃ t ∈ body.walkScope, Takes key t ∨ Asks key t) ∧
        ∀ n, fields.get? key = some n → (n.facets.required = true ↔ TakenFirst key body.walkScope)) ∨
    (LacksDefault body.walkScope ∧ ∃ f, requestFields names types body = .error (.fault f)) := by
  rw [requestFields]
  rcases settles_foldlM_withPart hnames htypes body.walkScope with ⟨hdefault, fields, hfields, hagrees⟩ | h
  · refine .inl ⟨hdefault, fields, hfields, fun key => ⟨?_, fun n hn => ?_⟩⟩
    · rw [hagrees.has, isSome_get?_accesses]
    · have hrequired := hagrees key
      rw [hn, Option.map_some] at hrequired
      obtain ⟨a, ha, hreq⟩ := Option.map_eq_some_iff.1 hrequired.symm
      rw [← hreq, ← get?_accesses_eq_taken_iff, ha, beq_iff_eq, Option.some_inj]
  · exact .inr h

open Building in
/-- The JSON data of a request. -/
def requestData (role : Role) : Written :=
  whole .attribute (some role) "request.json" fun start =>
    [leaf .identifier (some .object) "request" start, leaf .identifier (some .attribute) "json" (start + 8)]

open Building in
/-- A field of the data by its key. -/
def taking (key : String) : Written :=
  whole .subscript none ("request.json[" ++ key ++ "]") fun start =>
    [requestData .value start, leaf .string (some .subscript) key (start + 13)]

open Building in
/-- A field of the data that is asked for. -/
def asking (arguments : List Written) : Written :=
  let list := "(" ++ textsOf ", " 2 arguments ++ ")"
  whole .call none ("request.json.get" ++ list) fun start =>
    [whole .attribute (some .function) "request.json.get" (fun start =>
      [requestData .object start, leaf .identifier (some .attribute) "get" (start + 13)]) start,
    whole .argumentList (some .arguments) list (fun start => inRow 2 arguments (start + 1)) (start + 16)]

open Building in
/-- One field is taken and then asked for, another one is asked for and then taken. -/
def mixedReads : Source.Tree :=
  bodyOf [statement (taking "'id'"), statement (asking [leaf .string none "'id'"]),
    statement (asking [leaf .string none "'page'", leaf .integer none "1"]), statement (taking "'page'")]

theorem accessesIn_mixedReads :
    accessesIn mixedReads = [("id", .taken), ("id", .asked), ("page", .asked), ("page", .taken)] := by
  decide +kernel

/-- What is asked for after it was taken stays required. -/
theorem requestFields_mixedReads : ∃ fields, requestFields {} {} mixedReads = .ok fields ∧
    (∃ n, fields.get? "id" = some n ∧ n.facets.required = true) ∧
    ∃ n, fields.get? "page" = some n ∧ n.facets.required = false := by
  have hok : (requestFields {} {} mixedReads).toOption.isSome = true := by decide +kernel
  rcases requestFields_required_iff Shape.not_hasUnion_names not_hasUnion_types mixedReads with
    ⟨-, fields, hfields, h⟩ | ⟨-, f, hf⟩
  · have hread (key : String) (hkey : (Entries.get? (accessesIn mixedReads) key).isSome = true) :
        ∃ n, fields.get? key = some n ∧
          (n.facets.required = true ↔ Entries.get? (accessesIn mixedReads) key = some .taken) := by
      obtain ⟨n, hn⟩ := Option.isSome_iff_exists.1 ((h key).1.2 (isSome_get?_accesses.1 hkey))
      exact ⟨n, hn, ((h key).2 n hn).trans get?_accesses_eq_taken_iff.symm⟩
    rw [accessesIn_mixedReads] at hread
    obtain ⟨id, hid, hrequired⟩ := hread "id" rfl
    obtain ⟨page, hpage, hoptional⟩ := hread "page" rfl
    exact ⟨fields, hfields, ⟨id, hid, hrequired.2 rfl⟩, page, hpage, Bool.eq_false_iff.2 fun hp =>
      nomatch hoptional.1 hp⟩
  · rw [hf] at hok
    cases hok

/-- A field that is taken by its key is not required if it was asked for before. -/
theorem requestFields_asked_first : (∃ t ∈ mixedReads.walkScope, Takes "page" t) ∧
    (requestFields {} {} mixedReads).toOption.bind (fun fields => (fields.get? "page").map (·.facets.required)) =
      some false := by
  decide +kernel

end Infer

end ApiSchema
