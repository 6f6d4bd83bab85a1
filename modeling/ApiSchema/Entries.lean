/-!
Named entries in the order of their first insertion. Setting a name that is already there keeps its
place and changes its value; a new name goes to the end.
-/
namespace ApiSchema

/-- Values under names, in insertion order. -/
abbrev Entries (α : Type u) := List (String × α)

namespace Entries

variable {α β : Type u}

/-- The value of a name in place of the old one, or a new entry at the end. -/
def set : Entries α → String → α → Entries α
  | [], key, value => [(key, value)]
  | (k, v) :: rest, key, value =>
    if k == key then (k, value) :: rest else (k, v) :: set rest key value

def get? : Entries α → String → Option α
  | [], _ => none
  | (k, v) :: rest, key => if k == key then some v else get? rest key

def has (es : Entries α) (key : String) : Bool := (get? es key).isSome

def erase (es : Entries α) (key : String) : Entries α := es.filter fun e => e.1 != key

def keys (es : Entries α) : List String := es.map (·.1)

def values (es : Entries α) : List α := es.map (·.2)

/-- All entries of the second list set in the first, from left to right. -/
def setAll (es : Entries α) (new : Entries α) : Entries α :=
  new.foldl (fun acc e => set acc e.1 e.2) es

/-- Pairs as entries: the first place and the last value of each name. -/
def ofPairs (pairs : List (String × α)) : Entries α := setAll [] pairs

/-- A new entry unless the name is already there. -/
def setDefault (es : Entries α) (key : String) (value : α) : Entries α :=
  if has es key then es else set es key value

theorem get?_set_self (es : Entries α) (key : String) (value : α) :
    get? (set es key value) key = some value := by
  induction es with
  | nil => simp [set, get?]
  | cons e rest ih =>
    obtain ⟨k, v⟩ := e
    by_cases h : k = key <;> simp [set, get?, h, ih]

theorem get?_set_ne (es : Entries α) {key other : String} (value : α) (h : other ≠ key) :
    get? (set es key value) other = get? es other := by
  induction es with
  | nil => simp [set, get?, Ne.symm h]
  | cons e rest ih =>
    obtain ⟨k, v⟩ := e
    by_cases hk : k = key
    · subst hk; simp [set, get?, Ne.symm h]
    · by_cases ho : k = other
      · subst ho; simp [set, get?, hk]
      · simp [set, get?, hk, ho, ih]

theorem get?_set (es : Entries α) (key : String) (x : α) (k : String) :
    get? (set es key x) k = if key = k then some x else get? es k := by
  split
  · rename_i h
    rw [h, get?_set_self]
  · rename_i h
    exact get?_set_ne es x (Ne.symm h)

theorem get?_filter (es : Entries α) (p : String → Bool) (key : String) :
    get? (es.filter fun e => p e.1) key = if p key then get? es key else none := by
  induction es with
  | nil => simp [get?]
  | cons e es ih =>
    obtain ⟨k, w⟩ := e
    by_cases hk : k = key
    · subst hk
      cases hp : p k <;> simp_all [get?]
    · cases hp : p k <;> simp_all [get?]

theorem get?_erase (es : Entries α) (name key : String) :
    get? (erase es name) key = if key = name then none else get? es key := by
  rw [erase, get?_filter es fun k => k != name]
  by_cases h : key = name <;> simp [h]

theorem set_map (f : α → β) (es : Entries α) (key : String) (value : α) :
    set (es.map fun e => (e.1, f e.2)) key (f value) = (set es key value).map fun e => (e.1, f e.2) := by
  induction es with
  | nil => rfl
  | cons e es ih =>
    obtain ⟨k, v⟩ := e
    by_cases h : k = key <;> simp [set, h, ih]

theorem setAll_map (f : α → β) (es new : Entries α) :
    setAll (es.map fun e => (e.1, f e.2)) (new.map fun e => (e.1, f e.2)) =
      (setAll es new).map fun e => (e.1, f e.2) := by
  unfold setAll
  induction new generalizing es with
  | nil => rfl
  | cons e new ih => rw [List.map_cons, List.foldl_cons, List.foldl_cons, set_map, ih]

theorem ofPairs_map (f : α → β) (pairs : List (String × α)) :
    ofPairs (pairs.map fun p => (p.1, f p.2)) = (ofPairs pairs).map fun p => (p.1, f p.2) :=
  setAll_map f [] pairs

/-- Setting a name adds it to the names, at the end, unless it is already there. -/
theorem keys_set (es : Entries α) (key : String) (value : α) :
    keys (set es key value) = if key ∈ keys es then keys es else keys es ++ [key] := by
  induction es with
  | nil => simp [set, keys]
  | cons e rest ih =>
    obtain ⟨k, v⟩ := e
    by_cases h : k = key
    · subst h; simp [set, keys]
    · simp only [keys] at ih
      by_cases hm : key ∈ rest.map (·.1) <;> simp_all [set, keys, Ne.symm h]

theorem nodup_keys_set {es : Entries α} (key : String) (value : α) (h : (keys es).Nodup) :
    (keys (set es key value)).Nodup := by
  rw [keys_set]
  split
  · exact h
  · rename_i hm
    exact List.nodup_append.2 ⟨h, by simp, by
      intro a ha b hb
      simp only [List.mem_singleton] at hb
      subst hb
      intro hab
      exact hm (hab ▸ ha)⟩

end Entries
end ApiSchema
