import ApiSchema.Proofs.Entries
import ApiSchema.Source.Expr

/-!
# Dictionaries that a body builds

A body can build a dictionary in a local variable: it binds the variable to a display, sets single keys of it and merges
other displays in, some of it in branches, and returns the variable. `Stmt` and `Script` are such programs, and `run` is
the dictionary that they end with. `Straight` and `Builds` say which syntax trees are such programs.

Whoever looks for assignments, calls and results in a body one by one meets the statements of the program in their order
and nothing else (`acts_straight`, `acts_builds`).
-/
namespace ApiSchema

namespace Source.Tree

variable {f : Form} {r : Option Role} {s : Span} {t : String} {ts : List Tree}

@[simp] theorem form_node : (Tree.node f r s t ts).form = f := rfl
@[simp] theorem role_node : (Tree.node f r s t ts).role = r := rfl
@[simp] theorem span_node : (Tree.node f r s t ts).span = s := rfl
@[simp] theorem text_node : (Tree.node f r s t ts).text = t := rfl
@[simp] theorem children_node : (Tree.node f r s t ts).children = ts := rfl

end Source.Tree

namespace Building

open Source

variable {α κ : Type} {form : Form} {span : Span} {text condition : String} {role : Option Role}

/-! ## Programs -/

/-- A dictionary display, with values of one type and conditions of another. -/
inductive Display (α κ : Type) where
  | nil
  | pair (key : String) (value : α) (rest : Display α κ)
  /-- All entries of the variable are taken over. -/
  | takeOver (rest : Display α κ)
  /-- Some entries are there if a condition holds. -/
  | optional (condition : κ) (entries rest : Display α κ)

/-- What is done to the dictionary in the variable. -/
inductive Change (α κ : Type) where
  | put (key : String) (value : α)
  | merge (d : Display α κ)

inductive Stmt (α κ : Type) where
  | bind (d : Display α κ)
  | change (c : Change α κ)

/-- Changes, some of them in branches. -/
inductive Script (α κ : Type) where
  | done
  | change (c : Change α κ) (rest : Script α κ)
  | branch (condition : κ) (yes no rest : Script α κ)

section

variable (truth : κ → Bool)

/-- The entries of a display in their order, while the variable holds some entries. -/
def Display.pairs (held : List (String × α)) : Display α κ → List (String × α)
  | .nil => []
  | .pair key x d => (key, x) :: d.pairs held
  | .takeOver d => held ++ d.pairs held
  | .optional c entries d => (if truth c then entries.pairs held else []) ++ d.pairs held

def Change.run (held : Entries α) : Change α κ → Entries α
  | .put key x => held.set key x
  | .merge d => held.setAll (d.pairs truth held)

def Stmt.run (held : Entries α) : Stmt α κ → Entries α
  | .bind d => .ofPairs (d.pairs truth held)
  | .change c => c.run truth held

/-- The dictionary after some statements. -/
def run (held : Entries α) (stmts : List (Stmt α κ)) : Entries α := stmts.foldl (Stmt.run truth) held

/-- The dictionary after a script. -/
def Script.run (held : Entries α) : Script α κ → Entries α
  | .done => held
  | .change c rest => rest.run (c.run truth held)
  | .branch c yes no rest => rest.run (if truth c then yes.run held else no.run held)

end

/-- Programs without conditions need no truth values. -/
def unconditional : Empty → Bool := nofun

/-- The dictionary that statements without conditions build. -/
def built (stmts : List (Stmt α Empty)) : Entries α := run unconditional [] stmts

variable {truth : κ → Bool} {held : Entries α}

theorem Stmt.nodup_run (stmt : Stmt α κ) (h : (Entries.keys held).Nodup) :
    (Entries.keys (stmt.run truth held)).Nodup := by
  rcases stmt with d | ⟨key, x⟩ | d
  · exact Entries.nodup_keys_ofPairs _
  · exact Entries.nodup_keys_set key x h
  · exact Entries.nodup_keys_setAll h

/-! ## What is met in a body -/

/-- The parts of a body that bind or change something, or give a result; of the calls only those that change the
dictionary in the variable. -/
def isAct (v : String) (t : Tree) : Bool :=
  match t.form with
  | .assignment | .returnStatement | .yield => true
  | .call => t.childText .function == v ++ ".update"
  | _ => false

/-- The acts among some trees and their descendants in the same scope. -/
def acts (v : String) (ts : List Tree) : List Tree := (Tree.walkScopeFrom ts).filter (isAct v)

theorem walkScopeFrom_append (xs ys : List Tree) :
    Tree.walkScopeFrom (xs ++ ys) = Tree.walkScopeFrom xs ++ Tree.walkScopeFrom ys := by
  fun_induction Tree.walkScopeFrom xs with
  | case1 => rfl
  | case2 t pending ih =>
    rw [List.append_assoc] at ih
    rw [List.cons_append, List.cons_append, Tree.walkScopeFrom, ih]

variable {v : String}

@[simp]
theorem acts_nil : acts v [] = [] := by
  simp [acts, Tree.walkScopeFrom]

theorem acts_append (xs ys : List Tree) : acts v (xs ++ ys) = acts v xs ++ acts v ys := by
  simp [acts, walkScopeFrom_append]

theorem acts_cons (t : Tree) (ts : List Tree) : acts v (t :: ts) = acts v [t] ++ acts v ts := acts_append [t] ts

theorem acts_singleton (t : Tree) :
    acts v [t] = (if isAct v t then [t] else []) ++ acts v t.scopeChildren := by
  simp only [acts, Tree.walkScopeFrom, List.append_nil, List.filter_cons]
  split <;> simp

/-- A tree that is no act and opens no scope has the acts of its children. -/
theorem acts_of_no_act {ts : List Tree}
    (h : isAct v (.node form role span text ts) = false) (hscope : Tree.opensScope form = false) :
    acts v [.node form role span text ts] = acts v ts := by
  rw [acts_singleton, h]
  simp [Tree.scopeChildren, Tree.form, Tree.children, hscope]

/-- An act that opens no scope comes before the acts of its children. -/
theorem acts_of_act {ts : List Tree}
    (h : isAct v (.node form role span text ts) = true) (hscope : Tree.opensScope form = false) :
    acts v [.node form role span text ts] = .node form role span text ts :: acts v ts := by
  rw [acts_singleton, h]
  simp [Tree.scopeChildren, Tree.form, Tree.children, hscope]

section

variable {σ β : Type} {body : Tree}

theorem foldl_walkScope {f : σ → Tree → σ} (init : σ) (h : ∀ s t, isAct v t = false → f s t = s) :
    body.walkScope.foldl f init = (acts v body.children).foldl f init := by
  rw [acts, List.foldl_filter]
  refine congrArg (fun g => List.foldl g init _) (funext fun s => funext fun t => ?_)
  cases ht : isAct v t with
  | false => exact h s t ht
  | true => rfl

theorem filterMap_walkScope {f : Tree → Option β} (h : ∀ t, isAct v t = false → f t = none) :
    body.walkScope.filterMap f = (acts v body.children).filterMap f := by
  rw [acts, List.filterMap_filter]
  refine congrArg (fun g => List.filterMap g _) (funext fun t => ?_)
  cases ht : isAct v t with
  | false => exact h t ht
  | true => rfl

theorem flatMap_walkScope {f : Tree → List β} (h : ∀ t, isAct v t = false → f t = []) :
    body.walkScope.flatMap f = (acts v body.children).flatMap f := by
  unfold acts Tree.walkScope
  induction Tree.walkScopeFrom body.children with
  | nil => rfl
  | cons t ts ih =>
    cases ht : isAct v t with
    | false => simp [ht, h t ht, ih]
    | true => simp [ht, ih]

end

/-! ## Syntax trees of programs -/

section

variable (v : String) (read : Tree → Option α) (cond : Tree → Option κ)

/-- The entries of a display, of which the values are read by `read` and the conditions by `cond`. -/
inductive Lists : List Tree → Display α κ → Prop
  | nil : Lists [] .nil
  | pair {role : Option Role} {span : Span} {text : String} {name value : Tree} {key : String} {x : α}
      {items : List Tree} {d : Display α κ} (hname : name.role = some .key) (hkey : stringValue? name = some key)
      (hvalue : value.role = some .value) (hread : read value = some x) (hquiet : acts v [name, value] = [])
      (rest : Lists items d) : Lists (.node .pair role span text [name, value] :: items) (.pair key x d)
  | takeOver {role role' : Option Role} {span span' : Span} {text : String} {items : List Tree} {d : Display α κ}
      (rest : Lists items d) :
      Lists (.node .dictionarySplat role span text [.node .identifier role' span' v []] :: items) (.takeOver d)
  | optional {role role₁ role₂ role₃ role₄ : Option Role} {span span₁ span₂ span₃ span₄ : Span}
      {text text₁ text₂ text₃ text₄ : String} {entries items : List Tree} {condition : Tree} {c : κ}
      {d d' : Display α κ}
      (hcond : cond condition = some c) (hquiet : acts v [condition] = []) (hentries : Lists entries d)
      (rest : Lists items d') :
      Lists (.node .dictionarySplat role span text [.node .parenthesized role₁ span₁ text₁
        [.node .conditional role₂ span₂ text₂ [.node .dictionary role₃ span₃ text₃ entries, condition,
          .node .dictionary role₄ span₄ text₄ []]]] :: items) (.optional c d d')

/-- The assignments and calls that are statements of a program. -/
inductive Does : Tree → Stmt α κ → Prop
  | bind {role : Option Role} {span span₁ span₂ : Span} {text text₂ : String} {items : List Tree} {d : Display α κ}
      (h : Lists v read cond items d) :
      Does (.node .assignment role span text [.node .identifier (some .left) span₁ v [],
        .node .dictionary (some .right) span₂ text₂ items]) (.bind d)
  | put {role : Option Role} {span span₁ span₂ : Span} {text text₁ : String} {name value : Tree} {key : String} {x : α}
      (hname : name.role = some .subscript) (hkey : stringValue? name = some key) (hvalue : value.role = some .right)
      (hread : read value = some x) (hquiet : acts v [name, value] = []) :
      Does (.node .assignment role span text [.node .subscript (some .left) span₁ text₁
        [.node .identifier (some .value) span₂ v [], name], value]) (.change (.put key x))
  | merge {role role₃ : Option Role} {span span₁ span₂ span₃ : Span} {text text₂ text₃ : String}
      {parts items : List Tree} {d : Display α κ} (hparts : acts v parts = []) (h : Lists v read cond items d) :
      Does (.node .call role span text [.node .attribute (some .function) span₁ (v ++ ".update") parts,
        .node .argumentList (some .arguments) span₂ text₂ [.node .dictionary role₃ span₃ text₃ items]])
        (.change (.merge d))

/-- A statement that returns the variable. -/
inductive Returns : Tree → Prop
  | intro {role role' : Option Role} {span span' : Span} {text : String} :
      Returns (.node .returnStatement role span text [.node .identifier role' span' v []])

/-- Statements one after the other, and the variable as the result. -/
inductive Straight : List Tree → List (Stmt α κ) → Prop
  | result {t : Tree} (h : Returns v t) : Straight [t] []
  | step {role : Option Role} {span : Span} {text : String} {act : Tree} {ts : List Tree} {stmt : Stmt α κ}
      {stmts : List (Stmt α κ)} (h : Does v read cond act stmt) (rest : Straight ts stmts) :
      Straight (.node .expressionStatement role span text [act] :: ts) (stmt :: stmts)

/-- Changes with branches between them. An `elif` reads as an `if` in the other branch. -/
inductive Follows : List Tree → Script α κ → Prop
  | done : Follows [] .done
  | change {role : Option Role} {span : Span} {text : String} {act : Tree} {ts : List Tree} {c : Change α κ}
      {s : Script α κ} (h : Does v read cond act (.change c)) (rest : Follows ts s) :
      Follows (.node .expressionStatement role span text [act] :: ts) (.change c s)
  | ifOnly {role role₁ : Option Role} {span span₁ : Span} {text text₁ : String} {condition : Tree} {c : κ}
      {yes ts : List Tree} {y s : Script α κ} (hcond : cond condition = some c) (hquiet : acts v [condition] = [])
      (hyes : Follows yes y) (rest : Follows ts s) :
      Follows (.node .ifStatement role span text [condition, .node .block role₁ span₁ text₁ yes] :: ts)
        (.branch c y .done s)
  | ifElse {role role₁ role₂ role₃ : Option Role} {span span₁ span₂ span₃ : Span} {text text₁ text₂ text₃ : String}
      {condition : Tree} {c : κ} {yes no ts : List Tree} {y n s : Script α κ} (hcond : cond condition = some c)
      (hquiet : acts v [condition] = []) (hyes : Follows yes y) (hno : Follows no n) (rest : Follows ts s) :
      Follows (.node .ifStatement role span text [condition, .node .block role₁ span₁ text₁ yes,
        .node .elseClause role₂ span₂ text₂ [.node .block role₃ span₃ text₃ no]] :: ts) (.branch c y n s)
  | ifElif {role role₁ role₂ : Option Role} {span span₁ span₂ : Span} {text text₁ text₂ : String}
      {condition other no : Tree} {c : κ} {yes alternatives ts : List Tree} {y n s : Script α κ}
      (hcond : cond condition = some c) (hquiet : acts v [condition] = []) (hyes : Follows yes y)
      (hother : Follows [.node .ifStatement role span text (other :: no :: alternatives)] n) (rest : Follows ts s) :
      Follows (.node .ifStatement role span text (condition :: .node .block role₁ span₁ text₁ yes ::
        .node .elifClause role₂ span₂ text₂ [other, no] :: alternatives) :: ts) (.branch c y n s)

/-- The variable is bound once, changes follow, some of them in branches, and the variable is the result. -/
inductive Builds : List Tree → Display α κ → Script α κ → Prop
  | intro {role : Option Role} {span : Span} {text : String} {act last : Tree} {ts : List Tree} {d : Display α κ}
      {s : Script α κ} (hact : Does v read cond act (.bind d)) (hchanges : Follows v read cond ts s)
      (hlast : Returns v last) :
      Builds (.node .expressionStatement role span text [act] :: (ts ++ [last])) d s

end

variable {read : Tree → Option α} {cond : Tree → Option κ} {items ts : List Tree} {d : Display α κ}

theorem acts_lists (h : Lists v read cond items d) : acts v items = [] := by
  induction h with
  | nil => exact acts_nil
  | pair hname hkey hvalue hread hquiet rest ih =>
    rw [acts_cons, acts_of_no_act rfl rfl, hquiet, ih]
    rfl
  | takeOver rest ih =>
    rw [acts_cons, acts_of_no_act rfl rfl, acts_of_no_act rfl rfl, acts_nil, ih]
    rfl
  | optional hcond hquiet hentries rest ih ih' =>
    rw [acts_cons, acts_of_no_act rfl rfl, acts_of_no_act rfl rfl, acts_of_no_act rfl rfl, acts_cons,
      acts_of_no_act rfl rfl, acts_cons, acts_of_no_act rfl rfl, ih, hquiet, ih']
    simp

theorem acts_does {act : Tree} {stmt : Stmt α κ}
    (h : Does v read cond act stmt) : acts v [.node .expressionStatement role span text [act]] = [act] := by
  rw [acts_of_no_act rfl rfl]
  cases h with
  | bind h =>
    rw [acts_of_act rfl rfl, acts_cons, acts_of_no_act rfl rfl, acts_nil, acts_of_no_act rfl rfl, acts_lists h]
    rfl
  | put hname hkey hvalue hread hquiet =>
    rw [acts_cons] at hquiet
    obtain ⟨hname, hvalue⟩ := List.append_eq_nil_iff.1 hquiet
    rw [acts_of_act rfl rfl, acts_cons, acts_of_no_act rfl rfl, acts_cons, acts_of_no_act rfl rfl, acts_nil, hname,
      hvalue]
    rfl
  | merge hparts h =>
    have hact : ∀ {role span text span₁ parts span₂ text₂ arguments}, isAct v (.node .call role span text
        [.node .attribute (some .function) span₁ (v ++ ".update") parts,
          .node .argumentList (some .arguments) span₂ text₂ arguments]) = true := by
      intros
      exact beq_self_eq_true _
    rw [acts_of_act hact rfl, acts_cons, acts_of_no_act rfl rfl, acts_of_no_act rfl rfl, acts_of_no_act rfl rfl, hparts,
      acts_lists h]
    rfl

theorem acts_returns {t : Tree} (h : Returns v t) : acts v [t] = [t] := by
  cases h
  rw [acts_of_act rfl rfl, acts_of_no_act rfl rfl, acts_nil]

theorem acts_straight {stmts : List (Stmt α κ)} (h : Straight v read cond ts stmts) :
    ∃ nodes last, acts v ts = nodes ++ [last] ∧ Returns v last ∧ List.Forall₂ (Does v read cond) nodes stmts := by
  induction h with
  | result h => exact ⟨[], _, acts_returns h, h, .nil⟩
  | step h rest ih =>
    obtain ⟨nodes, last, hacts, hlast, hnodes⟩ := ih
    refine ⟨_ :: nodes, last, ?_, hlast, .cons h hnodes⟩
    rw [acts_cons, acts_does h, hacts]
    rfl

/-- The changes of a script in the order in which they are written. -/
def Script.changes : Script α κ → List (Change α κ)
  | .done => []
  | .change c rest => c :: rest.changes
  | .branch _ yes no rest => yes.changes ++ (no.changes ++ rest.changes)

/-- The acts of a script are its changes, whatever branch they are in. -/
theorem acts_follows {s : Script α κ} (h : Follows v read cond ts s) :
    List.Forall₂ (fun act c => Does v read cond act (.change c)) (acts v ts) s.changes := by
  induction h with
  | done =>
    rw [acts_nil]
    exact .nil
  | change h rest ih =>
    rw [acts_cons, acts_does h]
    exact .cons h ih
  | ifOnly hcond hquiet hyes rest ihyes ih =>
    rw [acts_cons, acts_of_no_act rfl rfl, acts_cons, hquiet, acts_of_no_act rfl rfl]
    exact List.rel_append ihyes ih
  | ifElse hcond hquiet hyes hno rest ihyes ihno ih =>
    rw [acts_cons, acts_of_no_act rfl rfl, acts_cons, hquiet, acts_cons, acts_of_no_act rfl rfl, acts_of_no_act rfl rfl,
      acts_of_no_act rfl rfl, List.nil_append, List.append_assoc]
    exact List.rel_append ihyes (List.rel_append ihno ih)
  | ifElif hcond hquiet hyes hother rest ihyes ihother ih =>
    rw [acts_of_no_act rfl rfl] at ihother
    rw [acts_cons, acts_of_no_act rfl rfl, acts_cons, hquiet, acts_cons, acts_of_no_act rfl rfl, acts_cons,
      acts_of_no_act rfl rfl, ← acts_append, List.nil_append, List.append_assoc]
    exact List.rel_append ihyes (List.rel_append ihother ih)

theorem acts_builds {s : Script α κ} (h : Builds v read cond ts d s) :
    ∃ nodes last, acts v ts = nodes ++ [last] ∧ Returns v last ∧
      List.Forall₂ (Does v read cond) nodes (.bind d :: s.changes.map .change) := by
  cases h with
  | @intro _ _ _ act last ts _ _ hact hchanges hlast =>
    refine ⟨act :: acts v ts, last, ?_, hlast, .cons hact (List.forall₂_map_right_iff.2 (acts_follows hchanges))⟩
    rw [acts_cons, acts_does hact, acts_append, acts_returns hlast]
    rfl

/-! ## Programs as they are written -/

/-- A piece of source text, by the place where it starts. -/
abbrev Written := Nat → Tree

def whole (form : Form) (role : Option Role) (text : String) (parts : Nat → List Tree) : Written :=
  fun start => .node form role ⟨start, start + text.length, 1, 1⟩ text (parts start)

def leaf (form : Form) (role : Option Role) (text : String) : Written := whole form role text fun _ => []

/-- Pieces one after the other, with so many characters between them. -/
def inRow (gap : Nat) : List Written → Nat → List Tree
  | [], _ => []
  | p :: ps, start => p start :: inRow gap ps ((p start).span.stop + gap)

def textsOf (separator : String) (gap : Nat) (ps : List Written) : String :=
  Text.join separator ((inRow gap ps 0).map Tree.text)

/-- A key with its value, which is one word. -/
def entry (key : String) (form : Form) (value : String) : Written :=
  whole .pair none (key ++ ": " ++ value) fun start =>
    [leaf .string (some .key) key start, leaf form (some .value) value (start + key.length + 2)]

/-- All entries of a variable. -/
def taken (v : String) : Written :=
  whole .dictionarySplat none ("**" ++ v) fun start => [leaf .identifier none v (start + 2)]

def display (role : Option Role) (items : List Written) : Written :=
  whole .dictionary role ("\x7b" ++ textsOf ", " 2 items ++ "\x7d") fun start => inRow 2 items (start + 1)

/-- Some entries if a condition holds, which is one word. -/
def given (condition : String) (items : List Written) : Written :=
  let entries := (display none items 0).text
  let choice := entries ++ " if " ++ condition ++ " else \x7b\x7d"
  whole .dictionarySplat none ("**(" ++ choice ++ ")") fun start =>
    [whole .parenthesized none ("(" ++ choice ++ ")") (fun start =>
      [whole .conditional none choice (fun start =>
        [display none items start, leaf .identifier none condition (start + entries.length + 4),
          display none [] (start + entries.length + condition.length + 10)]) (start + 1)]) (start + 2)]

/-- A variable is bound to a display. -/
def binding (v : String) (items : List Written) : Written :=
  whole .assignment none (v ++ " = " ++ (display none items 0).text) fun start =>
    [leaf .identifier (some .left) v start, display (some .right) items (start + v.length + 3)]

/-- A key of a variable is set to a value that is one word. -/
def setting (v key : String) (form : Form) (value : String) : Written :=
  let target := v ++ "[" ++ key ++ "]"
  whole .assignment none (target ++ " = " ++ value) fun start =>
    [whole .subscript (some .left) target (fun start =>
      [leaf .identifier (some .value) v start, leaf .string (some .subscript) key (start + v.length + 1)]) start,
    leaf form (some .right) value (start + target.length + 3)]

/-- A display is merged into a variable. -/
def merging (v : String) (items : List Written) : Written :=
  let arguments := "(" ++ (display none items 0).text ++ ")"
  whole .call none (v ++ ".update" ++ arguments) fun start =>
    [whole .attribute (some .function) (v ++ ".update") (fun start => [leaf .identifier (some .object) v start,
      leaf .identifier (some .attribute) "update" (start + v.length + 1)]) start,
    whole .argumentList (some .arguments) arguments (fun start => [display none items (start + 1)])
      (start + v.length + 7)]

/-- An assignment or a call as a statement. -/
def statement (act : Written) : Written := whole .expressionStatement none (act 0).text fun start => [act start]

/-- Statements on one line. -/
def line (role : Option Role) (statements : List Written) : Written :=
  whole .block role (textsOf "; " 2 statements) (inRow 2 statements)

/-- Statements that are run if a condition holds. -/
def branching (condition : String) (yes : List Written) : Written :=
  whole .ifStatement none ("if " ++ condition ++ ": " ++ (line none yes 0).text) fun start =>
    [leaf .identifier none condition (start + 3), line none yes (start + condition.length + 5)]

/-- Statements that are run if a condition holds, and others if not. -/
def branchingElse (condition : String) (yes no : List Written) : Written :=
  let upper := "if " ++ condition ++ ": " ++ (line none yes 0).text ++ "\n"
  let lower := "else: " ++ (line none no 0).text
  whole .ifStatement none (upper ++ lower) fun start =>
    [leaf .identifier none condition (start + 3), line none yes (start + condition.length + 5),
      whole .elseClause (some .alternative) lower (fun start => [line (some .body) no (start + 6)])
        (start + upper.length)]

/-- The variable as the result. -/
def returned (v : String) : Written :=
  whole .returnStatement none ("return " ++ v) fun start => [leaf .identifier none v (start + 7)]

/-- A body of some statements, one a line. -/
def bodyOf (statements : List Written) : Tree :=
  whole .block (some .body) (textsOf "\n" 1 statements) (inRow 1 statements) 0

/-- A body that binds a variable to a display, makes some changes and returns the variable. -/
def buildingBody (v : String) (items changes : List Written) : Tree :=
  bodyOf (statement (binding v items) :: (changes ++ [returned v]))

/-- Forms of one word. -/
def isWord : Form → Bool
  | .identifier | .string | .integer => true
  | _ => false

theorem acts_word {start : Nat} (h : isWord form = true) :
    acts v [leaf form role text start] = [] := by
  unfold isWord at h
  split at h
  · exact (acts_of_no_act rfl rfl).trans acts_nil
  · exact (acts_of_no_act rfl rfl).trans acts_nil
  · exact (acts_of_no_act rfl rfl).trans acts_nil
  · cases h

section

variable {stmts : List (Stmt α κ)} {ps : List Written} {start : Nat} {key k text : String} {form : Form} {x : α}

theorem lists_entry (hkey : stringValue? (leaf .string (some .key) key start) = some k)
    (hread : read (leaf form (some .value) text (start + key.length + 2)) = some x) (hform : isWord form = true)
    (rest : Lists v read cond (inRow 2 ps ((entry key form text start).span.stop + 2)) d) :
    Lists v read cond (inRow 2 (entry key form text :: ps) start) (.pair k x d) := by
  refine .pair rfl hkey rfl hread ?_ rest
  rw [acts_cons, acts_word rfl, acts_word hform]
  rfl

theorem lists_taken (rest : Lists v read cond (inRow 2 ps ((taken v start).span.stop + 2)) d) :
    Lists v read cond (inRow 2 (taken v :: ps) start) (.takeOver d) :=
  .takeOver rest

theorem lists_given {items : List Written} {c : κ} {d' : Display α κ}
    (hcond : cond (leaf .identifier none condition (start + (display none items 0).text.length + 7)) = some c)
    (h : Lists v read cond (inRow 2 items (start + 4)) d)
    (rest : Lists v read cond (inRow 2 ps ((given condition items start).span.stop + 2)) d') :
    Lists v read cond (inRow 2 (given condition items :: ps) start) (.optional c d d') := by
  refine .optional ?_ (acts_word rfl) h rest
  rw [← hcond]
  congr 2
  omega

theorem does_binding {items : List Written} (h : Lists v read cond (inRow 2 items (start + v.length + 4)) d) :
    Does v read cond (binding v items start) (.bind d) :=
  .bind h

theorem does_setting (hkey : stringValue? (leaf .string (some .subscript) key (start + v.length + 1)) = some k)
    (hread : read (leaf form (some .right) text (start + (v ++ "[" ++ key ++ "]").length + 3)) = some x)
    (hform : isWord form = true) : Does v read cond (setting v key form text start) (.change (.put k x)) := by
  refine .put rfl hkey rfl hread ?_
  rw [acts_cons, acts_word rfl, acts_word hform]
  rfl

theorem does_merging {items : List Written} (h : Lists v read cond (inRow 2 items (start + v.length + 9)) d) :
    Does v read cond (merging v items start) (.change (.merge d)) := by
  refine .merge ?_ h
  rw [acts_cons, acts_word rfl, acts_word rfl]
  rfl

theorem straight_statement {act : Written} {stmt : Stmt α κ} (h : Does v read cond (act start) stmt)
    (rest : Straight v read cond (inRow 1 ps ((statement act start).span.stop + 1)) stmts) :
    Straight v read cond (inRow 1 (statement act :: ps) start) (stmt :: stmts) :=
  .step h rest

theorem straight_returned : Straight v read cond (inRow 1 [returned v] start) [] := .result .intro

variable {script : Script α κ} {gap : Nat}

theorem follows_statement {act : Written} {c : Change α κ} (h : Does v read cond (act start) (.change c))
    (rest : Follows v read cond (inRow gap ps ((statement act start).span.stop + gap)) script) :
    Follows v read cond (inRow gap (statement act :: ps) start) (.change c script) :=
  .change h rest

theorem inRow_concat (gap : Nat) (ps : List Written) (last : Written) (start : Nat) :
    ∃ stop, inRow gap (ps ++ [last]) start = inRow gap ps start ++ [last stop] := by
  induction ps generalizing start with
  | nil => exact ⟨start, rfl⟩
  | cons p ps ih =>
    obtain ⟨stop, hstop⟩ := ih ((p start).span.stop + gap)
    exact ⟨stop, congrArg (p start :: ·) hstop⟩

theorem builds_body {items : List Written} (h : Lists v read cond (inRow 2 items (v.length + 4)) d)
    (hchanges : Follows v read cond (inRow 1 ps ((statement (binding v items) 0).span.stop + 1)) script) :
    Builds v read cond (buildingBody v items ps).children d script := by
  obtain ⟨stop, hstop⟩ := inRow_concat 1 ps (returned v) ((statement (binding v items) 0).span.stop + 1)
  have hchildren : (buildingBody v items ps).children =
      statement (binding v items) 0 ::
        (inRow 1 ps ((statement (binding v items) 0).span.stop + 1) ++ [returned v stop]) :=
    congrArg (statement (binding v items) 0 :: ·) hstop
  rw [hchildren]
  exact .intro (does_binding (by rwa [Nat.zero_add])) hchanges .intro

end

end Building
end ApiSchema
