import ApiSchema.Proofs.Building
import ApiSchema.Rule.Extract

/-!
# Rules that a method builds

The rules of a form are listed from the body of a method without running it: first the entries of the dictionary that
the variable is bound to last, then every entry that is set or merged in anywhere in the body (`Listed`). Running the
statements in order gives another dictionary if a key is set and the variable is then bound to a dictionary that does
not keep the key (`declaredByClasses_stale`). For the other keys, which are `Lasting`, both give the same rules
(`declaredByClasses_built`).
-/
namespace ApiSchema

variable {start stop place place' : Nat} {t body : Source.Tree} {ts : List Source.Tree}

/-! ## Places in the source -/

namespace Source.Tree

mutual

/-- Whether a tree and its parts take up places in the source, the parts of a tree one after the other inside of it. -/
def isPlaced : Tree → Bool
  | .node _ _ s _ ts => s.start < s.stop && arePlaced s.start s.stop ts

/-- Whether trees take up places one after the other from one place to another. -/
def arePlaced (start stop : Nat) : List Tree → Bool
  | [] => true
  | t :: ts => start ≤ t.span.start && t.span.stop ≤ stop && isPlaced t && arePlaced t.span.stop stop ts

end

theorem isPlaced_node {form : Form} {role : Option Role} {span : Span} {text : String} :
    isPlaced (.node form role span text ts) = true ↔
      span.start < span.stop ∧ arePlaced span.start span.stop ts = true := by
  simp [isPlaced]

theorem arePlaced_cons :
    arePlaced start stop (t :: ts) = true ↔ start ≤ t.span.start ∧ t.span.stop ≤ stop ∧ t.isPlaced = true ∧
      arePlaced t.span.stop stop ts = true := by
  simp [arePlaced, and_assoc]

theorem start_lt_stop (h : t.isPlaced = true) : t.span.start < t.span.stop := by
  cases t
  exact (isPlaced_node.1 h).1

theorem arePlaced_mono {start' : Nat} (hstart : start' ≤ start)
    (h : arePlaced start stop ts = true) : arePlaced start' stop ts = true := by
  cases ts with
  | nil => rfl
  | cons t ts =>
    obtain ⟨hle, rest⟩ := arePlaced_cons.1 h
    exact arePlaced_cons.2 ⟨Nat.le_trans hstart hle, rest⟩

/-- What comes before a tree ends where that tree starts. -/
theorem arePlaced_concat (h : arePlaced start stop (ts ++ [t]) = true) :
    start ≤ t.span.start ∧ arePlaced start t.span.start ts = true ∧ t.isPlaced = true := by
  induction ts generalizing start with
  | nil =>
    obtain ⟨hle, -, ht, -⟩ := arePlaced_cons.1 h
    exact ⟨hle, rfl, ht⟩
  | cons x xs ih =>
    obtain ⟨hle, -, hx, hxs⟩ := arePlaced_cons.1 h
    obtain ⟨hle', hxs', ht⟩ := ih hxs
    have hlt := start_lt_stop hx
    exact ⟨by omega, arePlaced_cons.2 ⟨hle, hle', hx, hxs'⟩, ht⟩

end Source.Tree

namespace Rule

open Source Building Text

variable {v : String} {lo hi : Nat}

theorem arePlaced_acts {α κ : Type} {read : Tree → Option α} {cond : Tree → Option κ}
    {stmts : List (Stmt α κ)} (h : Straight v read cond ts stmts) (hts : Tree.arePlaced lo hi ts = true) :
    Tree.arePlaced lo hi (acts v ts) = true := by
  induction h generalizing lo with
  | result h =>
    rw [acts_returns h]
    exact hts
  | step h rest ih =>
    obtain ⟨hlo, hhi, hstmt, hrest⟩ := Tree.arePlaced_cons.1 hts
    obtain ⟨hstart, hstop, hact, -⟩ := Tree.arePlaced_cons.1 (Tree.isPlaced_node.1 hstmt).2
    rw [acts_cons, acts_does h]
    exact Tree.arePlaced_cons.2
      ⟨Nat.le_trans hlo hstart, Nat.le_trans hstop hhi, hact, Tree.arePlaced_mono hstop (ih hrest)⟩

/-! ## What is listed of a program -/

/-- Texts of rules are the only values, and there are no conditions. -/
abbrev RuleStmt := Stmt String Empty

abbrev RuleDisplay := Display String Empty

/-- The entries of the last binding, and all that are set or merged in. -/
structure Listed where
  bound : List (String × String) := []
  updates : List (String × String) := []

variable {d : RuleDisplay} {l : Listed} {stmts : List RuleStmt} {known : List Bound}

/-- The entries that a statement sets or merges in. What is taken over is what the variable was bound to. -/
def Listed.added (l : Listed) : RuleStmt → List (String × String)
  | .bind _ => []
  | .change (.put key x) => [(key, x)]
  | .change (.merge d) => d.pairs unconditional l.bound

def Listed.step (l : Listed) (stmt : RuleStmt) : Listed where
  bound := match stmt with
    | .bind d => d.pairs unconditional l.bound
    | .change _ => l.bound
  updates := l.updates ++ l.added stmt

theorem Listed.updates_step (l : Listed) (stmt : RuleStmt) : (l.step stmt).updates = l.updates ++ l.added stmt := rfl

def listed (stmts : List RuleStmt) : Listed := stmts.foldl Listed.step {}

/-! ## Listing the syntax tree -/

/-- A field with the rules of a text. -/
def declare (p : String × String) : Declaration := (p.1, (parseLine p.2).map .token)

/-- What the variable is last bound to before a place. -/
def heldAt (v : String) (known : List Bound) (place : Nat) : List Declaration :=
  ((known.filter fun b => b.name == v && b.stop ≤ place).getLast?.map (·.declared)).getD []

theorem heldAt_congr
    (h : ∀ b ∈ known, b.stop ≤ place ↔ b.stop ≤ place') : heldAt v known place = heldAt v known place' := by
  unfold heldAt
  congr 3
  refine List.filter_congr fun b hb => ?_
  simp [h b hb]

theorem heldAt_inside {held : List Declaration}
    (hknown : ∀ b ∈ known, b.stop ≤ lo ∨ hi < b.stop) (hheld : heldAt v known lo = held) (hlo : lo ≤ place)
    (hhi : place ≤ hi) : (∀ b ∈ known, b.stop ≤ place ∨ hi < b.stop) ∧ heldAt v known place = held := by
  refine ⟨fun b hb => ?_, ?_⟩
  · rcases hknown b hb with h | h
    · exact .inl (Nat.le_trans h hlo)
    · exact .inr h
  · rw [← hheld]
    refine heldAt_congr fun b hb => ?_
    rcases hknown b hb with h | h <;> omega

/-- A display lies on one side of each dictionary that is bound, so that all of it takes over the same. -/
theorem declaredIn_of_lists {inherited : List Declaration} {items : List Tree}
    {held : List (String × String)} (hv : startsWith v ancestorCall = false)
    (h : Lists v stringValue? (fun _ => none) items d) (hplaced : Tree.arePlaced lo hi items = true)
    (hknown : ∀ b ∈ known, b.stop ≤ lo ∨ hi < b.stop) (hheld : heldAt v known lo = held.map declare) :
    declaredIn inherited known items = (d.pairs unconditional held).map declare := by
  induction h generalizing lo with
  | nil => simp [declaredIn, Display.pairs]
  | optional hcond => cases hcond
  | pair hname hkey hvalue hread hquiet rest ih =>
    obtain ⟨hstart, hstop, hpair, hrest⟩ := Tree.arePlaced_cons.1 hplaced
    have hlt := Tree.start_lt_stop hpair
    obtain ⟨hknown, hheld⟩ := heldAt_inside hknown hheld (by omega) hstop
    simp [declaredIn, Tree.child?, Tree.inRole?, Tree.children, hname, hkey, hvalue, declaredByValue, declaredBy, hread,
      Display.pairs, declare, ih hrest hknown hheld]
  | takeOver rest ih =>
    obtain ⟨hstart, hstop, hsplat, hrest⟩ := Tree.arePlaced_cons.1 hplaced
    obtain ⟨hlt, hinner⟩ := Tree.isPlaced_node.1 hsplat
    obtain ⟨hlo, hhi, hname, -⟩ := Tree.arePlaced_cons.1 hinner
    have hlt' := Tree.start_lt_stop hname
    simp only [Tree.span_node] at hstart hstop hlo hhi hlt'
    have htaken := (heldAt_inside hknown hheld (Nat.le_trans hstart hlo) (by omega)).2
    obtain ⟨hknown, hheld⟩ := heldAt_inside hknown hheld (by omega) hstop
    rw [declaredIn, declaredBySplat, hv, ih hrest hknown hheld, Display.pairs, List.map_append]
    exact congrArg (· ++ _) htaken

theorem boundIn_eq (inherited : List Declaration) (body : Tree) :
    boundIn inherited body = (acts v body.children).foldl (bindStep inherited) [] := by
  refine foldl_walkScope [] fun known t ht => ?_
  unfold bindStep
  split
  · rename_i hform _ _
    simp [isAct, hform] at ht
  · rfl

theorem updatesOf_eq (body : Tree) :
    updatesOf body v = (acts v body.children).flatMap (updateStep (boundIn [] body) v) := by
  refine flatMap_walkScope fun t ht => ?_
  unfold updateStep
  cases hform : t.form
  case assignment => simp [isAct, hform] at ht
  case call =>
    simp only [isAct, hform] at ht
    simp only [ht]
    split <;> rfl
  all_goals rfl

theorem declaredByMethod_eq (inherited : List Declaration) (body : Tree) :
    declaredByMethod inherited body = (acts v body.children).findSome? (returned? inherited body) := by
  rw [declaredByMethod, ← List.head?_filterMap, ← List.head?_filterMap]
  refine congrArg List.head? (filterMap_walkScope fun t ht => ?_)
  unfold returned?
  split
  · rename_i hform _
    simp [isAct, hform] at ht
  · rfl

/-- The known dictionaries are all bound to the variable before a place, the last one with some entries. -/
structure Knows (v : String) (place : Nat) (bound : List (String × String)) (known : List Bound) : Prop where
  before : ∀ b ∈ known, b.name = v ∧ b.stop ≤ place
  last : (known.getLast?.map (·.declared)).getD [] = bound.map declare

theorem Knows.heldAt_eq {bound : List (String × String)} {later : List Bound}
    (h : Knows v place bound known) (hplace : place ≤ place') (hlater : ∀ b ∈ later, place' < b.stop) :
    heldAt v (known ++ later) place' = bound.map declare := by
  have hfilter : (known ++ later).filter (fun b => b.name == v && decide (b.stop ≤ place')) = known := by
    rw [List.filter_append, List.filter_eq_self.2, List.filter_eq_nil_iff.2, List.append_nil]
    · intro b hb
      have := hlater b hb
      simp [Nat.not_le.2 this]
    · intro b hb
      obtain ⟨hname, hstop⟩ := h.before b hb
      simp [hname, Nat.le_trans hstop hplace]
  rw [heldAt, hfilter, h.last]

theorem Knows.mono {bound : List (String × String)}
    (h : Knows v place bound known) (hplace : place ≤ place') : Knows v place' bound known :=
  ⟨fun b hb => ⟨(h.before b hb).1, Nat.le_trans (h.before b hb).2 hplace⟩, h.last⟩

section

variable {known : List Bound} {act : Tree} {stmt : RuleStmt} {l : Listed} {place : Nat} (inherited : List Declaration)

theorem bindStep_bind {role : Option Role} {span span₁ span₂ : Span} {text text₂ : String} {items : List Tree} :
    bindStep inherited known (.node .assignment role span text [.node .identifier (some .left) span₁ v [],
      .node .dictionary (some .right) span₂ text₂ items]) =
      known ++ [⟨v, span₂.stop, declaredIn inherited known items⟩] := rfl

theorem exists_foldl_bindStep (known : List Bound) (ts : List Tree) :
    ∃ new, ts.foldl (bindStep inherited) known = known ++ new := by
  induction ts generalizing known with
  | nil => exact ⟨[], by simp⟩
  | cons t ts ih =>
    obtain ⟨new, hnew⟩ : ∃ new, bindStep inherited known t = known ++ new := by
      unfold bindStep
      split
      · split
        · exact ⟨_, rfl⟩
        · exact ⟨[], by simp⟩
      · exact ⟨[], by simp⟩
    obtain ⟨later, hlater⟩ := ih (bindStep inherited known t)
    exact ⟨new ++ later, by rw [List.foldl_cons, hlater, hnew, List.append_assoc]⟩

theorem bindStep_change {c : Change String Empty} (hact : Does v stringValue? (fun _ => none) act (.change c)) :
    bindStep inherited known act = known := by
  cases hact with
  | put hname hkey hvalue hread hquiet =>
    unfold bindStep
    split
    · rename_i hleft _
      cases hleft
      rfl
    · rfl
  | merge hparts h => rfl

variable (hv : startsWith v ancestorCall = false)

include hv

/-- A statement binds at most one more dictionary, in its own place. -/
theorem Knows.step (h : Knows v place l.bound known) (hact : Does v stringValue? (fun _ => none) act stmt)
    (hplace : place ≤ act.span.start) (hplaced : act.isPlaced = true) :
    Knows v act.span.stop (l.step stmt).bound (bindStep inherited known act) ∧
      ∃ new, bindStep inherited known act = known ++ new ∧ ∀ b ∈ new, act.span.start < b.stop := by
  have hlt := Tree.start_lt_stop hplaced
  cases stmt with
  | change c =>
    rw [bindStep_change inherited hact]
    exact ⟨h.mono (by omega), [], by simp, by simp⟩
  | bind d =>
    cases hact with
    | @bind _ span span₁ span₂ _ _ items _ hitems =>
      obtain ⟨hstart, hstop, hleft, hrest⟩ := Tree.arePlaced_cons.1 (Tree.isPlaced_node.1 hplaced).2
      obtain ⟨hstart', hstop', hright, -⟩ := Tree.arePlaced_cons.1 hrest
      have hlt₁ := Tree.start_lt_stop hleft
      obtain ⟨hlt₂, hplaced⟩ := Tree.isPlaced_node.1 hright
      simp only [Tree.span_node] at hplace hlt hstart hstop hstart' hstop' hlt₁
      have hdeclared : declaredIn inherited known items = (d.pairs unconditional l.bound).map declare := by
        refine declaredIn_of_lists hv hitems hplaced (fun b hb => .inl ?_) ?_
        · have := (h.before b hb).2
          omega
        · rw [← List.append_nil known]
          exact h.heldAt_eq (by omega) (by simp)
      rw [bindStep_bind, hdeclared]
      refine ⟨⟨fun b hb => ?_, by simp [Listed.step]⟩, _, rfl, fun b hb => ?_⟩
      rcases List.mem_append.1 hb with hb | hb
      · obtain ⟨hname, hle⟩ := h.before b hb
        exact ⟨hname, by simp only [Tree.span_node]; omega⟩
      · cases List.mem_singleton.1 hb
        exact ⟨rfl, hstop'⟩
      · cases List.mem_singleton.1 hb
        simp only [Tree.span_node]
        omega

theorem Knows.updateStep_eq (h : Knows v place l.bound known) (hact : Does v stringValue? (fun _ => none) act stmt)
    (hplace : place ≤ act.span.start) (hplaced : act.isPlaced = true) {later : List Bound}
    (hlater : ∀ b ∈ later, act.span.stop < b.stop) :
    updateStep (bindStep inherited known act ++ later) v act = (l.added stmt).map declare := by
  cases hact with
  | bind hitems => rfl
  | put hname hkey hvalue hread hquiet =>
    simp [updateStep, Tree.child?, Tree.inRole?, Tree.childText, Tree.textIn, hname, hkey, hvalue, hread, Listed.added,
      declare, declaredByValue, declaredBy]
  | @merge _ _ span span₁ span₂ span₃ _ _ _ parts items d hparts hitems =>
    obtain ⟨hstart, hstop, hfunction, hrest⟩ := Tree.arePlaced_cons.1 (Tree.isPlaced_node.1 hplaced).2
    obtain ⟨hstart', hstop', harguments, -⟩ := Tree.arePlaced_cons.1 hrest
    obtain ⟨hlt₂, hinner⟩ := Tree.isPlaced_node.1 harguments
    obtain ⟨hstart₃, hstop₃, hdictionary, -⟩ := Tree.arePlaced_cons.1 hinner
    obtain ⟨hlt₃, hplaced⟩ := Tree.isPlaced_node.1 hdictionary
    have hlt₁ := Tree.start_lt_stop hfunction
    simp only [Tree.span_node] at hplace hstart hstop hstart' hstop' hlt₁ hstart₃ hstop₃ hlater
    have hdeclared : declaredIn [] (known ++ later) items = (d.pairs unconditional l.bound).map declare := by
      refine declaredIn_of_lists hv hitems hplaced (fun b hb => ?_) (h.heldAt_eq (by omega) fun b hb => ?_)
      · rcases List.mem_append.1 hb with hb | hb
        · have := (h.before b hb).2
          exact .inl (by omega)
        · have := hlater b hb
          exact .inr (by omega)
      · have := hlater b hb
        omega
    rw [Listed.added, ← hdeclared]
    simp [updateStep, bindStep, Tree.child?, Tree.inRole?, Tree.childText, Tree.textIn, argumentsOf, isSplat]

variable {stmts : List RuleStmt}

section

variable {nodes : List Tree} (hnodes : List.Forall₂ (Does v stringValue? (fun _ => none)) nodes stmts)

include hnodes

/-- After all statements, the last binding counts. -/
theorem Knows.run (h : Knows v place l.bound known) (hplace : place ≤ hi)
    (hplaced : Tree.arePlaced place hi nodes = true) :
    Knows v hi (stmts.foldl Listed.step l).bound (nodes.foldl (bindStep inherited) known) ∧
      ∃ new, nodes.foldl (bindStep inherited) known = known ++ new ∧ ∀ b ∈ new, place < b.stop := by
  induction hnodes generalizing place known l with
  | nil => exact ⟨h.mono hplace, [], by simp, by simp⟩
  | cons hact hnodes ih =>
    obtain ⟨hstart, hstop, hact', hrest⟩ := Tree.arePlaced_cons.1 hplaced
    have hlt := Tree.start_lt_stop hact'
    obtain ⟨hstep, new, hnew, hnewStops⟩ := h.step inherited hv hact hstart hact'
    obtain ⟨hrun, later, hlater, hlaterStops⟩ := ih hstep hstop hrest
    refine ⟨hrun, new ++ later, ?_, fun b hb => ?_⟩
    · rw [List.foldl_cons, hlater, hnew, List.append_assoc]
    · rcases List.mem_append.1 hb with hb | hb
      · exact Nat.lt_of_le_of_lt hstart (hnewStops b hb)
      · have := hlaterStops b hb
        omega

theorem Knows.flatMap_updateStep (h : Knows v place l.bound known)
    (hplaced : Tree.arePlaced place hi nodes = true) :
    l.updates.map declare ++ nodes.flatMap (updateStep (nodes.foldl (bindStep inherited) known) v) =
      (stmts.foldl Listed.step l).updates.map declare := by
  induction hnodes generalizing place known l with
  | nil => simp
  | cons hact hnodes ih =>
    obtain ⟨hstart, hstop, hact', hrest⟩ := Tree.arePlaced_cons.1 hplaced
    obtain ⟨hstep, -⟩ := h.step inherited hv hact hstart hact'
    obtain ⟨-, later, hlater, hstops⟩ := hstep.run inherited hv hnodes hstop hrest
    have hadded := h.updateStep_eq inherited hv hact hstart hact' hstops
    have hrun := ih hstep hrest
    rw [← hlater] at hadded
    rw [List.foldl_cons, List.flatMap_cons, hadded, List.foldl_cons, ← hrun, ← List.append_assoc, ← List.map_append]
    rfl

omit hv in
theorem findSome?_returned? : nodes.findSome? (returned? inherited body) = none := by
  induction hnodes with
  | nil => rfl
  | cons hact _ ih =>
    rw [List.findSome?_cons, ih]
    cases hact <;> rfl

end

/-- A method that builds its rules declares what is listed of it. -/
theorem declaredByMethod_straight
    (h : Straight v stringValue? (fun _ => none) body.children (.bind d :: stmts)) (hplaced : body.isPlaced = true) :
    declaredByMethod inherited body =
      some (((listed (.bind d :: stmts)).bound ++ (listed (.bind d :: stmts)).updates).map declare) := by
  obtain ⟨nodes, last, hacts, hlast, hnodes⟩ := acts_straight h
  have hplaced : Tree.arePlaced body.span.start body.span.stop (nodes ++ [last]) = true := by
    rw [← hacts]
    cases body
    exact arePlaced_acts h (Tree.isPlaced_node.1 hplaced).2
  obtain ⟨hstart, hplaced, hreturn⟩ := Tree.arePlaced_concat hplaced
  have hempty : Knows v body.span.start ({} : Listed).bound [] := ⟨by simp, rfl⟩
  -- the result is no binding, so all that is known comes from the statements
  have hknown : ∀ inherited, boundIn inherited body = nodes.foldl (bindStep inherited) [] := by
    intro inherited
    cases hlast
    rw [boundIn_eq, hacts, List.foldl_append]
    rfl
  have hupdates : updatesOf body v = (listed (.bind d :: stmts)).updates.map declare := by
    rw [updatesOf_eq, hknown, hacts, List.flatMap_append]
    have hlisted := hempty.flatMap_updateStep [] hv hnodes hplaced
    cases hlast
    simpa [updateStep, listed] using hlisted
  obtain ⟨hrun, -⟩ := hempty.run inherited hv hnodes hstart hplaced
  obtain ⟨bound, hbound⟩ : ∃ b, (nodes.foldl (bindStep inherited) []).getLast? = some b := by
    cases hnodes with
    | cons hact hnodes =>
      cases hact with
      | bind hitems =>
        obtain ⟨new, hnew⟩ := exists_foldl_bindStep inherited _ _
        refine ⟨_, List.getLast?_eq_some_getLast ?_⟩
        rw [List.foldl_cons, bindStep_bind, hnew]
        simp
  rw [declaredByMethod_eq, hacts, List.findSome?_append, findSome?_returned? inherited hnodes]
  cases hlast with
  | @intro role role' span span' text =>
    obtain ⟨hle, -⟩ := Tree.arePlaced_cons.1 (Tree.isPlaced_node.1 hreturn).2
    have hbefore : boundBefore (boundIn inherited body) (.node .identifier role' span' v []) = some bound := by
      rw [hknown, ← hbound]
      refine congrArg List.getLast? (List.filter_eq_self.2 fun b hb => ?_)
      obtain ⟨hname, hstop⟩ := hrun.before b hb
      have hbefore : b.stop ≤ span'.start := Nat.le_trans hstop hle
      simp [hname, hbefore]
    have hdeclared : bound.declared = (listed (.bind d :: stmts)).bound.map declare := by
      have := hrun.last
      rw [hbound] at this
      exact this
    simp [returned?, hbefore, hupdates, hdeclared]

end

/-! ## Running the statements -/

/-- Whether a display takes over what the variable holds. -/
def takes : RuleDisplay → Bool
  | .nil => false
  | .pair _ _ d => takes d
  | .takeOver _ => true
  | .optional c _ _ => nomatch c

/-- Whether a display lists a key after all that it takes over, and so gives it a value of its own. -/
def gives (k : String) : RuleDisplay → Bool
  | .nil => false
  | .pair key _ d => gives k d || (key == k && !takes d)
  | .takeOver d => gives k d
  | .optional c _ _ => nomatch c

/-- Whether a statement may set a key or merge it in. -/
def updates (k : String) : RuleStmt → Bool
  | .bind _ => false
  | .change (.put key _) => key == k
  | .change (.merge d) => takes d || gives k d

/-- Whether a key has the value that was set last also after a statement: a binding takes it over as it is, and nothing
merges in what the key was bound to before. -/
def keeps (k : String) : RuleStmt → Bool
  | .bind d => takes d && !gives k d
  | .change (.put _ _) => true
  | .change (.merge d) => !takes d || gives k d

/-- After a statement that sets a key or merges it in, all statements keep the key. -/
def Lasting (k : String) (stmts : List RuleStmt) :
    Prop := stmts.Pairwise fun a b => updates k a = true → keeps k b = true

section

open Entries

variable {k : String} {d : RuleDisplay} {held held' : List (String × String)}

theorem pairs_of_not_takes (h : takes d = false) : d.pairs unconditional held = d.pairs unconditional held' := by
  induction d with
  | nil => rfl
  | pair key x d ih => exact congrArg (_ :: ·) (ih h)
  | takeOver d ih => cases h
  | optional c => exact nomatch c

theorem last?_pairs_congr (h : last? held k = last? held' k) :
    last? (d.pairs unconditional held) k = last? (d.pairs unconditional held') k := by
  induction d with
  | nil => rfl
  | pair key x d ih => rw [Display.pairs, Display.pairs, last?_cons, last?_cons, ih]
  | takeOver d ih => rw [Display.pairs, Display.pairs, last?_append, last?_append, ih, h]
  | optional c => exact nomatch c

/-- A key that a display gives a value of its own has that value whatever is taken over. -/
theorem last?_pairs_of_gives (h : gives k d = true) :
    last? (d.pairs unconditional held) k = last? (d.pairs unconditional held') k ∧
      (last? (d.pairs unconditional held) k).isSome := by
  induction d with
  | nil => cases h
  | optional c => exact nomatch c
  | takeOver d ih =>
    obtain ⟨heq, hsome⟩ := ih h
    obtain ⟨x, hx⟩ := Option.isSome_iff_exists.1 hsome
    rw [hx] at heq
    simp [Display.pairs, ← heq, hx]
  | pair key x d ih =>
    rw [Display.pairs, Display.pairs, last?_cons, last?_cons]
    by_cases hgives : gives k d = true
    · obtain ⟨heq, hsome⟩ := ih hgives
      exact ⟨by rw [heq], by simp [hsome]⟩
    · simp only [gives, hgives, Bool.false_or, Bool.and_eq_true, beq_iff_eq, Bool.not_eq_true'] at h
      have hpairs : d.pairs unconditional held = d.pairs unconditional held' := pairs_of_not_takes h.2
      rw [hpairs]
      simp [h.1]

theorem last?_pairs_of_neither (htakes : takes d = false) (hgives : gives k d = false) :
    last? (d.pairs unconditional held) k = none := by
  induction d with
  | nil => rfl
  | takeOver d ih => cases htakes
  | optional c => exact nomatch c
  | pair key x d ih =>
    have hd : takes d = false := htakes
    simp only [gives, hd, Bool.not_false, Bool.and_true, Bool.or_eq_false_iff, beq_eq_false_iff_ne] at hgives
    rw [Display.pairs, last?_cons, ih hd hgives.1, if_neg hgives.2]
    rfl

/-- A display that takes over a key, and gives it no value of its own, keeps it. -/
theorem last?_pairs_of_takes {x : String} (htakes : takes d = true) (hgives : gives k d = false)
    (hheld : last? held k = some x) : last? (d.pairs unconditional held) k = some x := by
  induction d with
  | nil => cases htakes
  | optional c => exact nomatch c
  | pair key y d ih =>
    have hd : takes d = true := htakes
    simp only [gives, hd, Bool.not_true, Bool.and_false, Bool.or_false] at hgives
    rw [Display.pairs, last?_cons, ih hd hgives]
    rfl
  | takeOver d ih =>
    have hgives : gives k d = false := hgives
    rw [Display.pairs, last?_append, hheld]
    cases hd : takes d with
    | true =>
      rw [ih hd hgives]
      rfl
    | false =>
      rw [last?_pairs_of_neither hd hgives]
      rfl

theorem updates_of_added {stmt : RuleStmt} (h : (last? (l.added stmt) k).isSome) :
    updates k stmt = true := by
  rcases stmt with d | ⟨key, x⟩ | d
  · cases h
  · by_cases hk : key = k
    · simp [updates, hk]
    · simp [Listed.added, last?_singleton, hk] at h
  · by_contra hnot
    simp only [updates, Bool.or_eq_true, not_or, Bool.not_eq_true] at hnot
    rw [Listed.added, last?_pairs_of_neither hnot.1 hnot.2] at h
    cases h

theorem get?_step {stmt : RuleStmt} {held : Entries String} (hnodup : (keys held).Nodup)
    (hkeeps : (last? l.updates k).isSome → keeps k stmt = true)
    (h : get? held k = (last? l.updates k).or (last? l.bound k)) :
    get? (stmt.run unconditional held) k = (last? (l.step stmt).updates k).or (last? (l.step stmt).bound k) := by
  have hlast : last? held k = get? held k := last?_eq_get? hnodup k
  -- as long as nothing has set the key, it is as it was bound
  have hbound : last? l.updates k = none → last? held k = last? l.bound k := by
    intro hnone
    rw [hlast, h, hnone, Option.none_or]
  rw [Listed.updates_step, last?_append]
  rcases stmt with d | ⟨key, x⟩ | d
  · change get? (ofPairs (d.pairs unconditional held)) k = _
    rw [get?_ofPairs]
    cases hset : last? l.updates k with
    | none => exact last?_pairs_congr (hbound hset)
    | some x =>
      have hd := hkeeps (by rw [hset]; rfl)
      simp only [keeps, Bool.and_eq_true, Bool.not_eq_true'] at hd
      exact last?_pairs_of_takes hd.1 hd.2 (by rw [hlast, h, hset]; rfl)
  · change get? (set held key x) k = _
    rw [get?_set, Listed.added, last?_singleton, h]
    split <;> rfl
  · change get? (setAll held (d.pairs unconditional held)) k = _
    rw [get?_setAll, h, ← Option.or_assoc]
    suffices hpairs : last? (d.pairs unconditional held) k = last? (d.pairs unconditional l.bound) k by
      rw [hpairs]
      rfl
    cases hset : last? l.updates k with
    | none => exact last?_pairs_congr (hbound hset)
    | some x =>
      have hd := hkeeps (by rw [hset]; rfl)
      simp only [keeps, Bool.or_eq_true, Bool.not_eq_true'] at hd
      rcases hd with htakes | hgives
      · rw [pairs_of_not_takes htakes]
      · exact (last?_pairs_of_gives hgives).1

/-- A key that lasts has the value that is listed. -/
theorem get?_run {held : Entries String} (hlasting : Lasting k stmts)
    (hnodup : (keys held).Nodup) (hkeeps : (last? l.updates k).isSome → ∀ stmt ∈ stmts, keeps k stmt = true)
    (h : get? held k = (last? l.updates k).or (last? l.bound k)) :
    get? (run unconditional held stmts) k =
      (last? (stmts.foldl Listed.step l).updates k).or (last? (stmts.foldl Listed.step l).bound k) := by
  induction stmts generalizing held l with
  | nil => exact h
  | cons stmt stmts ih =>
    obtain ⟨hfirst, hrest⟩ := List.pairwise_cons.1 hlasting
    refine ih hrest (stmt.nodup_run hnodup) (fun hsome a ha => ?_)
      (get?_step hnodup (fun hsome => hkeeps hsome stmt (by simp)) h)
    rw [Listed.updates_step, last?_append] at hsome
    cases hadded : last? (l.added stmt) k with
    | some x => exact hfirst a ha (updates_of_added (by rw [hadded]; rfl))
    | none =>
      rw [hadded] at hsome
      exact hkeeps hsome a (by simp [ha])

theorem get?_built (h : Lasting k stmts) :
    get? (built stmts) k = last? ((listed stmts).bound ++ (listed stmts).updates) k := by
  rw [last?_append]
  exact get?_run h List.nodup_nil (by simp) rfl

end

/-! ## Rule sets -/

theorem not_startsWith_of_isIdentifier (h : isIdentifier v = true) : startsWith v ancestorCall = false := by
  cases hstart : startsWith v ancestorCall with
  | false => rfl
  | true =>
    obtain ⟨rest, hrest⟩ := List.isPrefixOf_iff_prefix.1 hstart
    have hcall : ancestorCall.toList = ['s', 'u', 'p', 'e', 'r', '(', ')'] := rfl
    have hparenthesis : isIdentifierContinue '(' = false := by decide
    rw [isIdentifier, ← hrest, hcall] at h
    simp [hparenthesis] at h

section

variable {m : Type → Type} [Monad m] [LawfulMonad m] (resolve : String → m String)

/-- Rules that are tokens need no name resolved. -/
theorem resolveAll_tokens (pairs : List (String × List Token)) :
    resolveAll resolve (pairs.map fun p => (p.1, p.2.map .token)) = pure (Entries.ofPairs pairs) := by
  have htokens : ∀ ts : List Token, (ts.map Declared.token).mapM (Declared.resolve resolve) = pure ts := by
    intro ts
    rw [List.mapM_map]
    exact (List.mapM_pure (f := id)).trans (by simp)
  suffices hfold : ∀ acc : RuleSet,
    (pairs.map fun p => (p.1, p.2.map Declared.token)).foldlM (fun (acc : RuleSet) d => do
      return acc.set d.1 (← d.2.mapM (Declared.resolve resolve))) acc = pure (Entries.setAll acc pairs) from hfold []
  induction pairs with
  | nil => exact fun acc => rfl
  | cons p pairs ih =>
    intro acc
    simp only [List.map_cons, List.foldlM_cons, htokens, pure_bind]
    exact ih _

theorem resolveAll_declare (pairs : List (String × String)) :
    resolveAll resolve (pairs.map declare) = pure (Entries.ofPairs (pairs.map fun p => (p.1, parseLine p.2))) := by
  have hpairs : pairs.map declare =
      (pairs.map fun p => (p.1, parseLine p.2)).map fun p => (p.1, p.2.map Declared.token) := by
    rw [List.map_map]
    rfl
  rw [hpairs, resolveAll_tokens]

/-- The rules of a class whose method builds them in a variable: each key that lasts has the rules of the text that it
has in the dictionary after the statements are run in order. -/
theorem declaredByClasses_built {method : String} {c : Source.Class} {ancestors : List Source.Class} {f : Function}
    (hmethod : c.methods.get? method = some f)
    (hbody : f.body = some body) (hplaced : body.isPlaced = true) (hv : isIdentifier v = true)
    (h : Straight v stringValue? (fun _ => none) body.children (.bind d :: stmts)) :
    ∃ declared rules, declaredByClasses method (c :: ancestors) = some declared ∧
      resolveAll resolve declared = pure rules ∧
      ∀ k, Lasting k (.bind d :: stmts) →
        Entries.get? rules k = (Entries.get? (built (.bind d :: stmts)) k).map parseLine := by
  have hdeclared := declaredByMethod_straight ((declaredByClasses method ancestors).getD [])
    (not_startsWith_of_isIdentifier hv) h hplaced
  refine ⟨_, _, ?_,
    resolveAll_declare resolve ((listed (.bind d :: stmts)).bound ++ (listed (.bind d :: stmts)).updates),
    fun k hk => ?_⟩
  · simp only [declaredByClasses, hmethod, hbody, Option.bind_some]
    exact hdeclared
  · rw [Entries.get?_ofPairs, Entries.last?_map, get?_built hk]

end

/-! ## Three methods -/

/-- An entry whose rules are a text. -/
def ruleEntry (key rules : String) : Written := entry ("'" ++ key ++ "'") .string ("'" ++ rules ++ "'")

/-- An entry is set to the rules of a text. -/
def ruleSetting (v key rules : String) : Written := setting v ("'" ++ key ++ "'") .string ("'" ++ rules ++ "'")

/-- A class with a method `rules` of some statements. -/
def ruleClass (statements : List Written) : Source.Class where
  name := "R"
  qualifiedName := "m.R"
  bases := []
  lineStart := 1
  lineEnd := 1
  methods := [("rules", {
    name := "rules"
    qualifiedName := "m.R.rules"
    parameters := [{ name := "self" }]
    body := some (bodyOf statements)
    lineStart := 1
    lineEnd := 1 })]

/-- The rules of a field of a class. -/
def rulesOf (c : Source.Class) (k : String) : Option (List Token) :=
  (declaredByClasses "rules" [c]).bind fun declared => Entries.get? (resolveAll (m := Id) pure declared) k

/-- Entries are set, taken over and merged in. -/
def extended : List Written := [
  statement (binding "v" [ruleEntry "a" "required"]),
  statement (ruleSetting "v" "b" "integer"),
  statement (binding "v" [taken "v", ruleEntry "c" "string"]),
  statement (merging "v" [ruleEntry "b" "number"]),
  returned "v"]

def extendedStmts : List RuleStmt := [
  .change (.put "b" "integer"),
  .bind (.takeOver (.pair "c" "string" .nil)),
  .change (.merge (.pair "b" "number" .nil))]

theorem declaredByClasses_built_extended :
    Lasting "b" (.bind (.pair "a" "required" .nil) :: extendedStmts) ∧
      ∃ declared rules, declaredByClasses "rules" [ruleClass extended] = some declared ∧
        resolveAll (m := Id) pure declared = pure rules ∧
        Entries.get? rules "b" =
          (Entries.get? (built (.bind (.pair "a" "required" .nil) :: extendedStmts)) "b").map parseLine ∧
        Entries.get? (built (.bind (.pair "a" "required" .nil) :: extendedStmts)) "b" = some "number" := by
  have hstraight : Straight "v" stringValue? (fun _ => none) (bodyOf extended).children
      (.bind (.pair "a" "required" .nil) :: extendedStmts) :=
    straight_statement (does_binding (lists_entry (by decide +kernel) (by decide +kernel) rfl .nil))
      (straight_statement (does_setting (by decide +kernel) (by decide +kernel) rfl)
        (straight_statement (does_binding (lists_taken (lists_entry (by decide +kernel) (by decide +kernel) rfl .nil)))
          (straight_statement (does_merging (lists_entry (by decide +kernel) (by decide +kernel) rfl .nil))
            straight_returned)))
  have hlasting : Lasting "b" (.bind (.pair "a" "required" .nil) :: extendedStmts) := by
    unfold Lasting
    decide +kernel
  have hmethod : (ruleClass extended).methods.get? "rules" = some _ := rfl
  obtain ⟨declared, rules, hdeclared, hrules, hget⟩ :=
    declaredByClasses_built (m := Id) pure hmethod rfl (by decide +kernel) (by decide +kernel) hstraight
  exact ⟨hlasting, declared, rules, hdeclared, hrules, hget "b" hlasting, by decide +kernel⟩

/-- A key is set, and the variable is then bound to a dictionary without it. -/
def rebound : List Written := [
  statement (binding "v" [ruleEntry "a" "required"]),
  statement (ruleSetting "v" "b" "integer"),
  statement (binding "v" [ruleEntry "c" "string"]),
  returned "v"]

def reboundStmts : List RuleStmt :=
  [.bind (.pair "a" "required" .nil), .change (.put "b" "integer"), .bind (.pair "c" "string" .nil)]

/-- A key is set, and the variable is then bound to a dictionary in which it has another value. -/
def overridden : List Written := [
  statement (binding "v" [ruleEntry "a" "required"]),
  statement (ruleSetting "v" "a" "integer"),
  statement (binding "v" [taken "v", ruleEntry "a" "string"]),
  returned "v"]

def overriddenStmts : List RuleStmt :=
  [.bind (.pair "a" "required" .nil), .change (.put "a" "integer"), .bind (.takeOver (.pair "a" "string" .nil))]

/-- An entry that is set stays among the rules after the variable is bound to a dictionary without it, and in front of
the value that it has there. -/
theorem declaredByClasses_stale :
    (Straight "v" stringValue? (fun _ => none) (bodyOf rebound).children reboundStmts ∧
      rulesOf (ruleClass rebound) "b" = some [{ name := "integer" }] ∧ Entries.get? (built reboundStmts) "b" = none) ∧
    Straight "v" stringValue? (fun _ => none) (bodyOf overridden).children overriddenStmts ∧
      rulesOf (ruleClass overridden) "a" = some [{ name := "integer" }] ∧
      Entries.get? (built overriddenStmts) "a" = some "string" := by
  refine ⟨⟨?_, by decide +kernel, by decide +kernel⟩, ?_, by decide +kernel, by decide +kernel⟩
  · exact straight_statement (does_binding (lists_entry (by decide +kernel) (by decide +kernel) rfl .nil))
      (straight_statement (does_setting (by decide +kernel) (by decide +kernel) rfl)
        (straight_statement (does_binding (lists_entry (by decide +kernel) (by decide +kernel) rfl .nil))
          straight_returned))
  · exact straight_statement (does_binding (lists_entry (by decide +kernel) (by decide +kernel) rfl .nil))
      (straight_statement (does_setting (by decide +kernel) (by decide +kernel) rfl)
        (straight_statement (does_binding (lists_taken (lists_entry (by decide +kernel) (by decide +kernel) rfl .nil)))
          straight_returned))

end Rule
end ApiSchema
