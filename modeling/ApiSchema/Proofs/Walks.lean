import ApiSchema.Proofs.Family
import ApiSchema.Proofs.OnDemand

/-!
# Walks in preorder

A tree is walked with a list of nodes to visit, and the children of a node are put in front of it. What such a walk
gives is said by *places*: a place is the list of the numbers of the children on the way down to a node. Places are
ordered like words. A place comes before those below it, and what is below a child comes before what is below the next
one, so that the nodes in the order of their places are in preorder. A walk lists some places if it meets each of them
once and in this order (`Listing`).

The walk of a schema lists all of its places (`walk_listing`). The walk of a scope lists the places that no nested scope
encloses; the expressions that a body produces are the values that are returned and yielded there, except where a line
is continued in front of the value (`walkScope_listing`).
-/
namespace ApiSchema

/-! ## Listings -/

section

variable {α β : Type} {R S : List Nat → β → Prop} {xs : List β}

/-- What stands at places, each place once and in the order of the places. -/
def Listing (R : List Nat → β → Prop) (xs : List β) : Prop :=
  ∃ entries : List (List Nat × β), entries.Pairwise (·.1 < ·.1) ∧ (∀ p b, (p, b) ∈ entries ↔ R p b) ∧
    entries.map (·.2) = xs

theorem Listing.congr (h : Listing R xs) (hRS : ∀ p b, R p b ↔ S p b) : Listing S xs := by
  obtain ⟨entries, hsorted, hmem, hxs⟩ := h
  exact ⟨entries, hsorted, fun p b => (hmem p b).trans (hRS p b), hxs⟩

theorem Listing.mem_iff (h : Listing R xs) {b : β} : b ∈ xs ↔ ∃ p, R p b := by
  obtain ⟨entries, -, hmem, rfl⟩ := h
  simp [hmem]

/-- What stands at a place below some things, if `R` says what stands in each of them. -/
def Below (R : α → List Nat → β → Prop) (as : List α) : List Nat → β → Prop
  | [], _ => False
  | i :: p, b => ∃ a, as[i]? = some a ∧ R a p b

theorem getElem?_concat_eq_some_iff {as : List α} {a c : α} {i : Nat} :
    (as ++ [a])[i]? = some c ↔ as[i]? = some c ∨ i = as.length ∧ a = c := by
  grind

theorem listing_below {R : α → List Nat → β → Prop} {walk : α → List β} {as : List α}
    (h : ∀ a ∈ as, Listing (R a) (walk a)) : Listing (Below R as) (as.flatMap walk) := by
  induction as using List.reverseRecOn with
  | nil =>
    refine ⟨[], .nil, fun p b => ?_, rfl⟩
    cases p <;> simp [Below]
  | append_singleton as a ih =>
    obtain ⟨front, hfront, hmem, hwalk⟩ := ih (List.forall_mem_append.1 h).1
    obtain ⟨last, hlast, hmem', hwalk'⟩ := h a (by simp)
    refine ⟨front ++ last.map fun e => (as.length :: e.1, e.2), ?_, fun p b => ?_, ?_⟩
    · refine List.pairwise_append.2 ⟨hfront, List.pairwise_map.2 (hlast.imp fun hlt => ?_), ?_⟩
      · exact List.cons_lt_cons_iff.2 (.inr ⟨rfl, hlt⟩)
      · rintro ⟨p, b⟩ hp _ he
        obtain ⟨e, -, rfl⟩ := List.mem_map.1 he
        cases p with
        | nil => exact ((hmem [] b).1 hp).elim
        | cons i p =>
          obtain ⟨c, hc, -⟩ := (hmem (i :: p) b).1 hp
          exact List.cons_lt_cons_iff.2 (.inl (List.getElem?_eq_some_iff.1 hc).1)
    · rw [List.mem_append, hmem]
      cases p with
      | nil => simp [Below]
      | cons i p =>
        simp only [Below, getElem?_concat_eq_some_iff, or_and_right, exists_or, and_assoc, exists_eq_left',
          exists_and_left, List.mem_map, Prod.mk.injEq, List.cons.injEq]
        grind
    · simp [hwalk, ← hwalk']

/-- What stands at the places of a tree: the root, and what stands below its children. -/
theorem Listing.cons {R : α → List Nat → β → Prop} {as : List α} (h : Listing (Below R as) xs) (b : β) :
    Listing (fun p c => p = [] ∧ b = c ∨ Below R as p c) (b :: xs) := by
  obtain ⟨entries, hsorted, hmem, hxs⟩ := h
  refine ⟨([], b) :: entries, .cons (fun e he => ?_) hsorted, fun p c => ?_, congrArg _ hxs⟩
  · obtain ⟨p, c⟩ := e
    cases p with
    | nil => exact ((hmem [] c).1 he).elim
    | cons i p => exact List.nil_lt_cons i p
  · rw [List.mem_cons, hmem, Prod.mk.injEq, eq_comm (a := c)]

end

/-! ## Schemas -/

namespace Node

/-- What stands at a place: an array has its items as the only child, an object its properties, a union its variants. -/
def at? : Node → List Nat → Option Node
  | n, [] => some n
  | .array _ items, 0 :: p => items.at? p
  | .object _ props, i :: p => props[i]?.bind (·.2.at? p)
  | .union _ v _, 0 :: p => v.at? p
  | .union _ _ vs, (i + 1) :: p => vs[i]?.bind (·.at? p)
  | _, _ => none

theorem at?_cons (n : Node) (i : Nat) (p : List Nat) : n.at? (i :: p) = n.children[i]?.bind (·.at? p) := by
  cases n with
  | scalar => simp [at?, children]
  | array => cases i <;> rfl
  | object f props =>
    rw [children, List.getElem?_map]
    cases h : props[i]? <;> simp [at?, h]
  | union => cases i <;> rfl

theorem listing_walk (n : Node) : Listing (fun p o => n.at? p = some o) n.walk := by
  have hstep (n : Node) (ih : ∀ c ∈ n.children, Listing (fun p o => c.at? p = some o) c.walk) :
      Listing (fun p o => n.at? p = some o) n.walk := by
    rw [walk_eq]
    refine ((listing_below ih).cons n).congr fun p o => ?_
    cases p with
    | nil => simp [at?, Below]
    | cons i p => simp [at?_cons, Below, Option.bind_eq_some_iff]
  induction n using Node.induct with
  | scalar k f => exact hstep _ fun c hc => absurd hc List.not_mem_nil
  | array f n ih => exact hstep _ fun c hc => List.mem_singleton.1 hc ▸ ih
  | object f ps ih =>
    refine hstep _ fun c hc => ?_
    obtain ⟨p, hp, rfl⟩ := List.mem_map.1 hc
    exact ih p hp
  | union f v vs ihv ih => exact hstep _ (List.forall_mem_cons.2 ⟨ihv, ih⟩)

/-- The walk of a schema meets every place of it once and in preorder, so that a placeholder at any depth is found. -/
theorem walk_listing (n : Node) :
    n.walk = n :: n.children.flatMap walk ∧ Listing (fun p o => n.at? p = some o) n.walk ∧
      (n.hasPlaceholder = true ↔ ∃ p o, n.at? p = some o ∧ o.facets.circularRef.isSome = true) := by
  refine ⟨n.walk_eq, n.listing_walk, ?_⟩
  simp only [hasPlaceholder, List.any_eq_true, n.listing_walk.mem_iff]
  constructor
  · rintro ⟨o, ⟨p, hp⟩, ho⟩
    exact ⟨p, o, hp, ho⟩
  · rintro ⟨p, o, hp, ho⟩
    exact ⟨o, ⟨p, hp⟩, ho⟩

end Node

/-! ## Scopes -/

namespace Source

namespace Tree

variable {t u : Tree} {i : Nat} {p : List Nat}

/-- What stands at a place. -/
def at? : Tree → List Nat → Option Tree
  | t, [] => some t
  | t, i :: p => t.children[i]?.bind (·.at? p)

/-- What stands at a place below a tree, with nothing strictly between the two that opens a scope. -/
def InScope (t : Tree) (p : List Nat) (u : Tree) : Prop :=
  p ≠ [] ∧ t.at? p = some u ∧ ∀ q, q <+: p → q ≠ p → q ≠ [] → ∀ c, t.at? q = some c → opensScope c.form = false

/-- What the walk reaches from a tree that it has come to. The tree itself must not open a scope to go further. -/
def Reaches (t : Tree) (p : List Nat) (u : Tree) : Prop :=
  t.at? p = some u ∧ ∀ q, q <+: p → q ≠ p → ∀ c, t.at? q = some c → opensScope c.form = false

theorem forall_before_cons {P : List Nat → Prop} :
    (∀ q, q <+: i :: p → q ≠ i :: p → P q) ↔ P [] ∧ ∀ q, q <+: p → q ≠ p → P (i :: q) := by
  constructor
  · intro h
    refine ⟨h [] List.nil_prefix (List.cons_ne_nil _ _).symm, fun q hq hne => ?_⟩
    exact h (i :: q) (List.cons_prefix_cons.2 ⟨rfl, hq⟩) fun heq => hne (List.cons.inj heq).2
  · rintro ⟨hnil, hcons⟩ q hq hne
    rcases List.prefix_cons_iff.1 hq with rfl | ⟨r, rfl, hr⟩
    · exact hnil
    · exact hcons r hr fun heq => hne (heq ▸ rfl)

theorem inScope_cons_iff : t.InScope (i :: p) u ↔ Below Reaches t.children (i :: p) u := by
  simp only [InScope, forall_before_cons, Below, Reaches, at?]
  cases t.children[i]? <;> simp

theorem reaches_cons_iff : t.Reaches (i :: p) u ↔ Below Reaches t.scopeChildren (i :: p) u := by
  simp only [Reaches, forall_before_cons, Below, at?]
  unfold scopeChildren
  cases hopens : opensScope t.form with
  | true => simp [hopens]
  | false => cases hchild : t.children[i]? <;> simp [hopens, hchild]

theorem walkScopeFrom_eq (ts : List Tree) : walkScopeFrom ts = ts.flatMap fun t => walkScopeFrom [t] := by
  induction ts with
  | nil => simp [walkScopeFrom]
  | cons t ts ih => rw [List.flatMap_cons, ← ih, ← Building.walkScopeFrom_append, List.singleton_append]

theorem mem_children_of_scopeChildren {c : Tree} (h : c ∈ t.scopeChildren) : c ∈ t.children := by
  unfold scopeChildren at h
  split at h
  · cases h
  · exact h

theorem listing_walkScopeFrom (t : Tree) : Listing t.Reaches (walkScopeFrom [t]) := by
  rw [walkScopeFrom, List.append_nil, walkScopeFrom_eq]
  refine ((listing_below fun c hc => listing_walkScopeFrom c).cons t).congr fun p u => ?_
  cases p with
  | nil => simp [Reaches, at?, Below]
  | cons i p => simp [reaches_cons_iff]
termination_by t.size
decreasing_by exact size_lt_of_mem (mem_children_of_scopeChildren hc)

theorem listing_walkScope (t : Tree) : Listing t.InScope t.walkScope := by
  rw [walkScope, walkScopeFrom_eq]
  refine (listing_below fun c _ => listing_walkScopeFrom c).congr fun p u => ?_
  cases p with
  | nil => simp [InScope, Below]
  | cons i p => exact inScope_cons_iff.symm

theorem pairwise_walkScopeFrom {start stop : Nat} {ts : List Tree} (h : areRegular start stop ts = true) :
    (walkScopeFrom ts).Pairwise fun u v => u.span.start ≤ v.span.start := by
  fun_induction walkScopeFrom ts generalizing start with
  | case1 => exact .nil
  | case2 t pending ih =>
    have hrest := areRegular_scopeChildren h
    exact .cons (fun u hu => (of_mem_walkScopeFrom hrest hu).1) (ih hrest)

/-- A return, or a yield that is not from another producer. -/
def givesValue (t : Tree) : Bool := t.form == .returnStatement || t.form == .yield

/-- The value that is returned or yielded. -/
def value? (t : Tree) : Option Tree :=
  if t.givesValue then t.children.find? (·.form != .lineContinuation) else none

end Tree

open ApiSchema.Source.Tree

/-- The walk of a scope meets every place of the scope once, in preorder and so in the order of the source. What a body
produces are the values that are returned and yielded in its own scope, in order, if and only if no line is continued in
front of one of them. -/
theorem walkScope_listing (t : Tree) :
    Listing t.InScope t.walkScope ∧
      (t.isRegular = true → t.walkScope.Pairwise fun u v => u.span.start ≤ v.span.start) ∧
      (producedIn t = t.walkScope.filterMap value? ↔
        ∀ u ∈ t.walkScope, u.givesValue = true → ∀ c ∈ u.children.head?, c.form ≠ .lineContinuation) := by
  refine ⟨t.listing_walkScope, fun h => pairwise_walkScopeFrom (isRegular_iff.1 h).2.2.2,
    fun h u hu hgives c hc hform => ?_,
    fun h => List.filterMap_congr fun u hu => ?_⟩
  · have hmem : c ∈ producedIn t := List.mem_filterMap.2 ⟨u, hu, (if_pos hgives).trans hc⟩
    rw [h] at hmem
    obtain ⟨v, -, hv⟩ := List.mem_filterMap.1 hmem
    unfold value? at hv
    split at hv
    · simpa [hform] using List.find?_some hv
    · cases hv
  · change (if u.givesValue then _ else _) = value? u
    unfold value?
    split
    · rename_i hgives
      have hhead := h u hu hgives
      cases hchildren : u.children with
      | nil => rfl
      | cons c cs =>
        rw [hchildren] at hhead
        simp [hhead c rfl]
    · rfl

/-- The walk of the body of a function of any text is in the order of the text. -/
theorem pairwise_walkScope_readModule {bytes : List Nat} {name short : String} {isPackage allowPartial : Bool}
    {m : Module} {f : Function} {body : Tree} (hm : readModule bytes name isPackage allowPartial = .ok m)
    (hf : m.functions.get? short = some f ∨ ∃ owner c, m.classes.get? owner = some c ∧ c.methods.get? short = some f)
    (hbody : f.body = some body) : body.walkScope.Pairwise fun u v => u.span.start ≤ v.span.start := by
  have hover := regular_readModule bytes name isPackage allowPartial m hm
  have hregular : body.isRegular = true := by
    rcases hf with hf | ⟨owner, c, hc, hf⟩
    · exact hover.functions short f hf body hbody
    · exact (hover.classes owner c hc).2.methods short f hf body hbody
  exact pairwise_walkScopeFrom (isRegular_iff.1 hregular).2.2.2

open Building

/-- A function inside of the body returns one name, the body yields and returns others. -/
def nestedResults : Tree := bodyOf [
  whole .functionDefinition none "def g(): return a" fun start =>
    [leaf .identifier (some .name) "g" (start + 4), leaf .parameters (some .parameters) "()" (start + 5),
      line (some .body) [returned "a"] (start + 9)],
  statement (whole .yield none "yield b" fun start => [leaf .identifier none "b" (start + 6)]),
  returned "c"]

theorem walkScope_listing_nestedResults :
    nestedResults.isRegular = true ∧ (nestedResults.walkScope.Pairwise fun u v => u.span.start ≤ v.span.start) ∧
      producedIn nestedResults = nestedResults.walkScope.filterMap value? ∧
      (producedIn nestedResults).map Tree.text = ["b", "c"] :=
  have hregular : nestedResults.isRegular = true := by decide +kernel
  ⟨hregular, (walkScope_listing nestedResults).2.1 hregular,
    (walkScope_listing nestedResults).2.2.2 (by decide +kernel),
    by decide +kernel⟩

/-- A dictionary is returned on the line after the return. -/
def continuedReturn : Tree :=
  let items := [entry "'a'" .integer "1"]
  bodyOf [whole .returnStatement none ("return \\\n" ++ (display none items 0).text) fun start =>
    [leaf .lineContinuation none "\\\n" (start + 7), display none items (start + 9)]]

/-- The continuation of the line is taken for the value. -/
theorem producedIn_continuedReturn : (producedIn continuedReturn).map Tree.text = ["\\\n"] ∧
    (continuedReturn.walkScope.filterMap value?).map Tree.text = ["\x7b'a': 1\x7d"] := by
  decide +kernel

end Source

end ApiSchema
