import ApiSchema.Cache
import Mathlib.Data.List.Basic
import Mathlib.Data.List.Induction

/-!
# What a cache recalls

Six operations read and change the two maps of a cache. What the cache recalls after some of them can be told from the
operations alone: a module or a schema is recalled if it was put there and every operation since has kept it. Whether a
schema is kept depends on the modules that are recalled at that moment, so an operation is judged by those before it
(`Since`).

One operation keeps a cache in step with its history (`Recalls.perform`), and so does a run of them, while the counts
follow the replies. Main statement: `recalls_after`.
-/
namespace ApiSchema.Cache

/-! ## Operations -/

/-- What can be asked of a cache or done to it. -/
inductive Op where
  | getSchema (key : String)
  | putSchema (key : String) (n : Node)
  | getModule (name : String)
  | putModule (name : String) (m : Source.Module)
  | invalidate (name : String)
  | clear

/-- What an operation gives back. -/
inductive Reply where
  | nothing
  | schema (n : Node)
  | module (m : Source.Module)

def Op.asksSchema : Op → Bool
  | .getSchema _ => true
  | _ => false

def Op.asksModule : Op → Bool
  | .getModule _ => true
  | _ => false

def Reply.isSchema : Reply → Bool
  | .schema _ => true
  | _ => false

def Reply.isModule : Reply → Bool
  | .module _ => true
  | _ => false

/-- The reply to an operation, and the cache after it. -/
def perform (c : Cache) : Op → Reply × Cache
  | .getSchema key => (((c.getSchema key).1.map .schema).getD .nothing, (c.getSchema key).2)
  | .putSchema key n => (.nothing, c.putSchema key n)
  | .getModule name => (((c.getModule name).1.map .module).getD .nothing, (c.getModule name).2)
  | .putModule name m => (.nothing, c.putModule name m)
  | .invalidate name => (.nothing, c.invalidate name)
  | .clear => (.nothing, c.clear)

/-- The cache after some operations. -/
def after (c : Cache) (ops : List Op) : Cache := ops.foldl (fun c op => (c.perform op).2) c

/-- The replies to some operations, one after the other. -/
def replies (c : Cache) : List Op → List Reply
  | [] => []
  | op :: ops => (c.perform op).1 :: (c.perform op).2.replies ops

theorem after_concat (c : Cache) (ops : List Op) (op : Op) : c.after (ops ++ [op]) = ((c.after ops).perform op).2 := by
  simp [after]

theorem replies_concat (c : Cache) (ops : List Op) (op : Op) :
    c.replies (ops ++ [op]) = c.replies ops ++ [((c.after ops).perform op).1] := by
  induction ops generalizing c with
  | nil => rfl
  | cons o ops ih => exact congrArg ((c.perform o).1 :: ·) (ih (c.perform o).2)

/-! ## Histories -/

/-- Some operation starts something, and every later one keeps it, each judged by the operations before it. -/
def Since (starts : Op → Prop) (keeps : List Op → Op → Prop) (ops : List Op) : Prop :=
  ∃ before op later, ops = before ++ op :: later ∧ starts op ∧
    ∀ mid o rest, later = mid ++ o :: rest → keeps (before ++ op :: mid) o

/-- The latest module of a name is put there, and neither this name nor everything is dropped since. -/
def HoldsModule (name : String) (m : Source.Module) : List Op → Prop :=
  Since (· = .putModule name m) fun _ op =>
    op ≠ .clear ∧ op ≠ .invalidate name ∧ ∀ m', op ≠ .putModule name m'

/-- The latest schema of a key is put there. Since then nothing is cleared, and no name is dropped that is the key up to
its first `#`, or that is the name of a module held at that moment. -/
def HoldsSchema (key : String) (n : Node) : List Op → Prop :=
  Since (· = .putSchema key n) fun ops op =>
    op ≠ .clear ∧ (∀ n', op ≠ .putSchema key n') ∧
      ∀ name, op = .invalidate name →
        name.toList ≠ key.toList.takeWhile (· != '#') ∧ ∀ m, ¬ HoldsModule name m ops

section

variable {starts : Op → Prop} {keeps : List Op → Op → Prop}

theorem not_since_nil : ¬ Since starts keeps [] := by
  rintro ⟨before, op, later, hops, -⟩
  simp at hops

/-- What stands in a history with one more operation is that operation or stood there before. -/
theorem concat_eq_append_cons {ops before later : List Op} {op first : Op}
    (h : ops ++ [op] = before ++ first :: later) :
    (before = ops ∧ first = op ∧ later = []) ∨ ∃ mid, later = mid ++ [op] ∧ ops = before ++ first :: mid := by
  rcases List.eq_nil_or_concat' later with rfl | ⟨mid, last, rfl⟩
  · obtain ⟨hops, hop⟩ := List.append_inj' h rfl
    exact .inl ⟨hops.symm, (List.singleton_inj.1 hop).symm, rfl⟩
  · rw [← List.cons_append, ← List.append_assoc] at h
    obtain ⟨hops, hop⟩ := List.append_inj' h rfl
    obtain rfl := List.singleton_inj.1 hop
    exact .inr ⟨mid, rfl, hops⟩

theorem since_concat {ops : List Op} {op : Op} :
    Since starts keeps (ops ++ [op]) ↔ starts op ∨ Since starts keeps ops ∧ keeps ops op := by
  constructor
  · rintro ⟨before, first, later, hops, hfirst, hlater⟩
    rcases concat_eq_append_cons hops with ⟨-, rfl, -⟩ | ⟨mid, rfl, rfl⟩
    · exact .inl hfirst
    · refine .inr ⟨⟨before, first, mid, rfl, hfirst, fun mid' o rest h => ?_⟩, hlater mid op [] rfl⟩
      exact hlater mid' o (rest ++ [op]) (by simp [h])
  · rintro (hop | ⟨⟨before, first, later, rfl, hfirst, hlater⟩, hop⟩)
    · exact ⟨ops, op, [], rfl, hop, by simp⟩
    · refine ⟨before, first, later ++ [op], by simp, hfirst, fun mid o rest h => ?_⟩
      rcases concat_eq_append_cons h with ⟨rfl, rfl, -⟩ | ⟨rest, -, hlater'⟩
      · exact hop
      · exact hlater mid o rest hlater'

end

/-! ## One operation -/

theorem enabled_perform (c : Cache) (op : Op) : (c.perform op).2.enabled = c.enabled := by
  cases op with
  | getSchema key =>
    simp only [perform, getSchema]
    split
    · rfl
    · split <;> rfl
  | putSchema key n =>
    simp only [perform, putSchema]
    split <;> rfl
  | getModule name =>
    simp only [perform, getModule]
    split <;> rfl
  | putModule name m => rfl
  | invalidate name =>
    simp only [perform, invalidate]
    split <;> rfl
  | clear => rfl

theorem maps_getSchema (c : Cache) (key : String) :
    (c.getSchema key).2.schemas = c.schemas ∧ (c.getSchema key).2.modules = c.modules := by
  unfold getSchema
  split
  · exact ⟨rfl, rfl⟩
  · split <;> exact ⟨rfl, rfl⟩

theorem maps_getModule (c : Cache) (name : String) :
    (c.getModule name).2.schemas = c.schemas ∧ (c.getModule name).2.modules = c.modules := by
  unfold getModule
  split <;> exact ⟨rfl, rfl⟩

theorem get?_modules_invalidate (c : Cache) (dropped name : String) :
    (c.invalidate dropped).modules.get? name = if name = dropped then none else c.modules.get? name := by
  unfold invalidate
  split
  · exact Entries.get?_erase _ _ _
  · rename_i h
    split
    · rename_i hname
      rw [hname]
      simpa [Entries.has] using h
    · rfl

/-- A name drops the schemas of its own keys, and all of them if it is the name of a module. -/
theorem get?_schemas_invalidate (c : Cache) (dropped key : String) :
    (c.invalidate dropped).schemas.get? key =
      if (c.modules.get? dropped).isSome ∨ subjectOf key = dropped then none else c.schemas.get? key := by
  unfold invalidate Entries.has
  split
  · rename_i h
    rw [if_pos (.inl h)]
    rfl
  · rename_i h
    rw [Entries.get?_filter c.schemas fun key => subjectOf key != dropped]
    by_cases hkey : subjectOf key = dropped <;> simp [h, hkey]

/-- What a cache holds is what its history says. Schemas are recalled only while the cache is enabled. -/
structure Recalls (c : Cache) (ops : List Op) : Prop where
  schema : c.enabled = true → ∀ key n, c.schemas.get? key = some n ↔ HoldsSchema key n ops
  module : ∀ name m, c.modules.get? name = some m ↔ HoldsModule name m ops

section

variable {c : Cache} {ops : List Op}

theorem recalls_fresh (enabled : Bool) : Recalls { enabled } [] where
  schema _ _ _ := by
    refine iff_of_false ?_ not_since_nil
    simp [Entries.get?]
  module _ _ := by
    refine iff_of_false ?_ not_since_nil
    simp [Entries.get?]

theorem Recalls.isSome_iff (h : Recalls c ops) (name : String) :
    (c.modules.get? name).isSome ↔ ∃ m, HoldsModule name m ops := by
  rw [Option.isSome_iff_exists]
  exact exists_congr (h.module name)

theorem subjectOf_eq_iff (key name : String) :
    subjectOf key = name ↔ name.toList = key.toList.takeWhile (· != '#') := by
  rw [← Text.toList_cut_fst, String.toList_inj, eq_comm]
  rfl

theorem Recalls.perform_module (h : Recalls c ops) (op : Op) (name : String) (m : Source.Module) :
    (c.perform op).2.modules.get? name = some m ↔ HoldsModule name m (ops ++ [op]) := by
  rw [HoldsModule, since_concat]
  change _ ↔ _ ∨ HoldsModule name m ops ∧ _
  rw [← h.module]
  cases op with
  | getSchema key => simp [perform, (maps_getSchema c key).2]
  | putSchema key n =>
    have hmodules : (c.putSchema key n).modules = c.modules := by
      unfold putSchema
      split <;> rfl
    simp [perform, hmodules]
  | getModule other => simp [perform, (maps_getModule c other).2]
  | putModule other m' =>
    simp only [perform, putModule, Entries.get?_set]
    by_cases hname : other = name <;> simp [hname]
  | invalidate dropped =>
    simp only [perform, get?_modules_invalidate]
    by_cases hname : name = dropped
    · simp [hname]
    · simp [hname, Ne.symm hname]
  | clear => simp [perform, clear, Entries.get?]

theorem Recalls.perform_schema (h : Recalls c ops) (henabled : c.enabled = true) (op : Op) (key : String) (n : Node) :
    (c.perform op).2.schemas.get? key = some n ↔ HoldsSchema key n (ops ++ [op]) := by
  rw [HoldsSchema, since_concat]
  change _ ↔ _ ∨ HoldsSchema key n ops ∧ _
  rw [← h.schema henabled]
  cases op with
  | getSchema other => simp [perform, (maps_getSchema c other).1]
  | putSchema other n' =>
    simp only [perform, putSchema, henabled, if_true, Entries.get?_set]
    by_cases hkey : other = key <;> simp [hkey]
  | getModule name => simp [perform, (maps_getModule c name).1]
  | putModule name m => simp [perform, putModule]
  | invalidate dropped =>
    have hkeeps : (dropped.toList ≠ key.toList.takeWhile (· != '#') ∧ ∀ m, ¬ HoldsModule dropped m ops) ↔
        ¬ ((c.modules.get? dropped).isSome ∨ subjectOf key = dropped) := by
      rw [not_or, h.isSome_iff, subjectOf_eq_iff, not_exists, and_comm]
    simp only [perform, get?_schemas_invalidate, reduceCtorEq, ne_eq, not_false_eq_true, implies_true, true_and,
      false_or, Op.invalidate.injEq, forall_eq']
    rw [hkeeps]
    split <;> simp [*]
  | clear => simp [perform, clear, Entries.get?]

/-- One operation keeps a cache in step with its history. -/
theorem Recalls.perform (h : Recalls c ops) (op : Op) : Recalls (c.perform op).2 (ops ++ [op]) where
  schema henabled := h.perform_schema (by rwa [enabled_perform] at henabled) op
  module := h.perform_module op

/-! ## Counts -/

/-- The counts are those of the questions asked so far, and of the replies to them. -/
structure Tallies (c : Cache) (ops : List Op) (replies : List Reply) : Prop where
  schemas : c.counts.schemaHits + c.counts.schemaMisses = if c.enabled then ops.countP Op.asksSchema else 0
  schemaHits : c.counts.schemaHits = replies.countP Reply.isSchema
  modules : c.counts.moduleHits + c.counts.moduleMisses = ops.countP Op.asksModule
  moduleHits : c.counts.moduleHits = replies.countP Reply.isModule

theorem tallies_fresh (enabled : Bool) : Tallies { enabled } [] [] := ⟨by cases enabled <;> rfl, rfl, rfl, rfl⟩

/-- Only a question counts, and it is a hit exactly if something is given back. -/
theorem Tallies.perform {rs : List Reply} (h : Tallies c ops rs) (op : Op) :
    Tallies (c.perform op).2 (ops ++ [op]) (rs ++ [(c.perform op).1]) := by
  obtain ⟨hschemas, hschemaHits, hmodules, hmoduleHits⟩ := h
  -- an operation that asks nothing leaves the counts as they are
  have hquiet : (c.perform op).2.counts = c.counts → (c.perform op).1 = .nothing → op.asksSchema = false →
      op.asksModule = false → Tallies (c.perform op).2 (ops ++ [op]) (rs ++ [(c.perform op).1]) := by
    intro hcounts hreply hschema hmodule
    refine ⟨?_, ?_, ?_, ?_⟩
    · rw [hcounts, enabled_perform, hschemas]
      simp [hschema]
    · rw [hcounts, hreply, hschemaHits]
      simp [Reply.isSchema]
    · rw [hcounts, hmodules]
      simp [hmodule]
    · rw [hcounts, hreply, hmoduleHits]
      simp [Reply.isModule]
  cases op with
  | getSchema key =>
    cases henabled : c.enabled with
    | false =>
      have hget : c.getSchema key = (none, c) := by simp [getSchema, henabled]
      constructor <;>
        simp_all [Cache.perform, Op.asksSchema, Op.asksModule, Reply.isSchema, Reply.isModule]
    | true =>
      rw [henabled, if_pos rfl] at hschemas
      cases hkey : c.schemas.get? key <;> constructor <;>
        simp [Cache.perform, getSchema, Op.asksSchema, Op.asksModule, Reply.isSchema, Reply.isModule, *] <;> omega
  | getModule name =>
    cases hname : c.modules.get? name <;> constructor <;>
      simp [Cache.perform, getModule, Op.asksSchema, Op.asksModule, Reply.isSchema, Reply.isModule, *] <;> omega
  | putSchema key n =>
    refine hquiet ?_ rfl rfl rfl
    simp only [Cache.perform, putSchema]
    split <;> rfl
  | putModule name m => exact hquiet rfl rfl rfl rfl
  | invalidate name =>
    refine hquiet ?_ rfl rfl rfl
    simp only [Cache.perform, invalidate]
    split <;> rfl
  | clear => exact hquiet rfl rfl rfl rfl

end

/-! ## Runs -/

theorem enabled_after (c : Cache) (ops : List Op) : (c.after ops).enabled = c.enabled := by
  induction ops using List.reverseRecOn with
  | nil => rfl
  | append_singleton ops op ih => rw [after_concat, enabled_perform, ih]

theorem recalls_run (enabled : Bool) (ops : List Op) : Recalls (after { enabled } ops) ops := by
  induction ops using List.reverseRecOn with
  | nil => exact recalls_fresh enabled
  | append_singleton ops op ih =>
    rw [after_concat]
    exact ih.perform op

theorem tallies_run (enabled : Bool) (ops : List Op) :
    Tallies (after { enabled } ops) ops (replies { enabled } ops) := by
  induction ops using List.reverseRecOn with
  | nil => exact tallies_fresh enabled
  | append_singleton ops op ih =>
    rw [after_concat, replies_concat]
    exact ih.perform op

/-- After any operations, an enabled cache gives the schemas that the operations say it holds, and any cache the
modules. Every question is counted, schemas only while the cache is enabled, and as a hit exactly if something was given
back. -/
theorem recalls_after (enabled : Bool) (ops : List Op) :
    (∀ key n, ((after { enabled } ops).getSchema key).1 = some n ↔ enabled = true ∧ HoldsSchema key n ops) ∧
      (∀ name m, ((after { enabled } ops).getModule name).1 = some m ↔ HoldsModule name m ops) ∧
      Tallies (after { enabled } ops) ops (replies { enabled } ops) := by
  have henabled : (after { enabled } ops).enabled = enabled := enabled_after _ ops
  have hrecalls := recalls_run enabled ops
  refine ⟨fun key n => ?_, fun name m => ?_, tallies_run enabled ops⟩
  · cases enabled with
    | false => simp [getSchema, henabled]
    | true =>
      rw [← hrecalls.schema henabled, getSchema, henabled]
      cases hkey : (after { enabled := true } ops).schemas.get? key <;> simp
  · rw [← hrecalls.module, getModule]
    cases hname : (after { enabled } ops).modules.get? name <;> simp

end ApiSchema.Cache
