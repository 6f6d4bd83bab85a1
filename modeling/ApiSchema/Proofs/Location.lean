import ApiSchema.Proofs.Resolution
import Mathlib.Logic.Relation

/-!
# Where classes are found

A module that imports a class passes its name on to the name that it imports it by (`Passes`). A library follows a name
from module to module, and gives up after so many modules (`maxHops`). Since it has to look into the module that defines
the class as well, the class is found if it is passed on fewer times than that (`result_locateClass_passed`). A class
that is passed on just as many times is lost (`passed_on_too_often`), and names that are passed on in a circle lead
nowhere.

Whatever name a class is found by, it has one name of its own, that of its module with that of the class after it, and
is found by that name too (`result_findClass_canonical`).
-/
namespace ApiSchema

open Source

variable {r : Library} {n : Nat} {name : String} {l : Located}

/-! ## Names that are passed on -/

section

variable (r)

/-- The module of a name does not define the class that the name stands for, and imports it by another name. -/
inductive Passes (name target : String) : Prop
  | intro {short : String} {m : Source.Module} (hname : Placed r name m [short]) (hc : m.classes.get? short = none)
    (ht : m.imports.names.get? short = some target)

/-- A name is passed on so many times, or more. -/
inductive PassedOn : Nat → String → Prop
  | zero (name : String) : PassedOn 0 name
  | succ {n : Nat} {name target : String} (h : Passes r name target) (ht : PassedOn n target) : PassedOn (n + 1) name

/-- A name is passed on to one that is passed on to itself. -/
def Circles (name : String) : Prop :=
  ∃ other, Relation.ReflTransGen (Passes r) name other ∧ Relation.TransGen (Passes r) other other

end

theorem Leads.passedOn {k : Nat} (h : Leads r n name l) (hk : k ≤ n) : PassedOn r k name := by
  induction h generalizing k with
  | defined _ _ =>
    obtain rfl : k = 0 := by omega
    exact .zero _
  | imported hname hc ht _ ih =>
    cases k with
    | zero => exact .zero _
    | succ k => exact .succ ⟨hname, hc, ht⟩ (ih (by omega))

theorem Circles.passes (h : Circles r name) : ∃ target, Passes r name target ∧ Circles r target := by
  obtain ⟨other, hto, hround⟩ := h
  rcases Relation.ReflTransGen.cases_head hto with rfl | ⟨target, hpass, hto⟩
  · obtain ⟨target, hpass, hback⟩ := Relation.TransGen.head'_iff.1 hround
    exact ⟨target, hpass, name, hback, hround⟩
  · exact ⟨target, hpass, other, hto, hround⟩

theorem Circles.passedOn (h : Circles r name) (n : Nat) : PassedOn r n name := by
  induction n generalizing name with
  | zero => exact .zero name
  | succ n ih =>
    obtain ⟨target, hpass, htarget⟩ := h.passes
    exact .succ hpass (ih htarget)

theorem Passes.hop {target : String} (h : Passes r name target) :
    result (hop name) r = .ok .stuck ∨ result (hop name) r = .ok (.next target) := by
  obtain ⟨hname, hc, ht⟩ := h
  rw [result_hop hname]
  simp only [hopIn, hc, ht]
  split
  · exact .inl rfl
  · exact .inr rfl

/-- A name that is passed on in every step leads nowhere, whether a name comes again or the steps are used up. -/
theorem PassedOn.result_locateFrom (h : PassedOn r n name) (seen : List String) :
    result (locateFrom seen name n) r = .ok none := by
  induction h generalizing seen with
  | zero name => rfl
  | @succ n name target hpass _ ih =>
    cases hnew : seen.contains name with
    | true =>
      rw [locateFrom, hnew]
      rfl
    | false =>
      rw [locateFrom_eq n hnew]
      rcases hpass.hop with hhop | hhop
      · rw [Reads.result_bind (.hop name) (reads_followed _ _ _ _) hhop]
        rfl
      · rw [Reads.result_bind (.hop name) (reads_followed _ _ _ _) hhop]
        exact ih (name :: seen)

theorem result_locateClass {found : Option Located}
    (h : result (locateFrom [] name maxHops) r = .ok found) :
    result (locateClass name) r = found.elim (.error (.unresolved ("Cannot resolve class " ++ name))) .ok := by
  rw [locateClass, result_bind, h]
  cases found <;> rfl

theorem PassedOn.result_locateClass (h : PassedOn r maxHops name) :
    result (locateClass name) r = .error (.unresolved ("Cannot resolve class " ++ name)) :=
  ApiSchema.result_locateClass (h.result_locateFrom [])

/-- A class is found if it is passed on fewer times than there are steps, and otherwise it cannot be resolved. This is
what a limit of so many times would say, except for a class that is passed on exactly as many times. Names that are
passed on in a circle cannot be resolved. -/
theorem result_locateClass_passed (r : Library) (name : String) :
    (∀ n l, Leads r n name l →
      (n < maxHops → result (locateClass name) r = .ok l) ∧
      (maxHops ≤ n → result (locateClass name) r = .error (.unresolved ("Cannot resolve class " ++ name))) ∧
      (result (locateClass name) r =
          (if n ≤ maxHops then .ok l else .error (.unresolved ("Cannot resolve class " ++ name))) ↔ n ≠ maxHops)) ∧
    (Circles r name → result (locateClass name) r = .error (.unresolved ("Cannot resolve class " ++ name))) := by
  refine ⟨fun n l hl => ?_, fun h => (h.passedOn maxHops).result_locateClass⟩
  have hfew : n < maxHops → result (locateClass name) r = .ok l := fun hn =>
    result_locateClass (result_locateFrom hl hn nofun)
  have hmany : maxHops ≤ n → result (locateClass name) r = .error (.unresolved ("Cannot resolve class " ++ name)) :=
    fun hn => (hl.passedOn hn).result_locateClass
  refine ⟨hfew, hmany, ?_⟩
  rcases Nat.lt_trichotomy n maxHops with hn | hn | hn
  · simp [hfew hn, Nat.le_of_lt hn, Nat.ne_of_lt hn]
  · simp [hmany (Nat.le_of_eq hn.symm), hn]
  · simp [hmany (Nat.le_of_lt hn), Nat.not_le_of_lt hn, Nat.ne_of_gt hn]

/-! ### Modules in a row -/

/-- A module that imports `A` from another one. -/
def relay (home source : String) : Source.Module := moduleIn home { names := [("A", source ++ ".A")] } []

/-- Modules of some names, each of which imports `A` from the next one. The last one defines it. -/
def relays : List String → List Source.Module
  | [] => []
  | [home] => [moduleIn home {} [("A", [])]]
  | home :: source :: rest => relay home source :: relays (source :: rest)

/-- Nine modules in a row. -/
def rowLibrary : Library := libraryOfModules (relays ["a", "b", "c", "d", "e", "f", "g", "h", "i"])

/-- The class at the end of the row. -/
def rowClass : Located := ⟨moduleIn "i" {} [("A", [])], classIn "i" "A" []⟩

/-- Two modules that import `A` from each other. -/
def circleLibrary : Library := libraryOfModules [relay "p" "q", relay "q" "p"]

theorem passes_relay (home source : String) (hs : r.splitName? (home ++ ".A") = some (home, ["A"]))
    (hm : result (loadModule home) r = .ok (relay home source)) : Passes r (home ++ ".A") (source ++ ".A") :=
  ⟨⟨hs, hm⟩, rfl, rfl⟩

theorem Passes.leads {target : String} (h : Passes r name target) (hl : Leads r n target l) :
    Leads r (n + 1) name l := by
  obtain ⟨hname, hc, ht⟩ := h
  exact .imported hname hc ht hl

/-- From the second module on, the class is passed on seven times. -/
theorem leads_row : Leads rowLibrary 7 "b.A" rowClass := by
  refine (passes_relay "b" "c" rfl rfl).leads ?_
  refine (passes_relay "c" "d" rfl rfl).leads ?_
  refine (passes_relay "d" "e" rfl rfl).leads ?_
  refine (passes_relay "e" "f" rfl rfl).leads ?_
  refine (passes_relay "f" "g" rfl rfl).leads ?_
  refine (passes_relay "g" "h" rfl rfl).leads ?_
  refine (passes_relay "h" "i" rfl rfl).leads ?_
  exact .defined ⟨rfl, rfl⟩ rfl

theorem circles_circleLibrary : Circles circleLibrary "p.A" := by
  have hout : Passes circleLibrary "p.A" "q.A" := passes_relay "p" "q" rfl rfl
  have hback : Passes circleLibrary "q.A" "p.A" := passes_relay "q" "p" rfl rfl
  exact ⟨"p.A", .refl, .tail (.single hout) hback⟩

/-- Seven times are not too often, and a circle is followed no further. -/
theorem result_locateClass_passed_row : result (locateClass "b.A") rowLibrary = .ok rowClass ∧
    result (locateClass "p.A") circleLibrary = .error (.unresolved "Cannot resolve class p.A") :=
  ⟨((result_locateClass_passed rowLibrary "b.A").1 7 rowClass leads_row).1 (by decide),
    (result_locateClass_passed circleLibrary "p.A").2 circles_circleLibrary⟩

/-- Eight times are no more than the limit, and too often. -/
theorem passed_on_too_often : 8 ≤ maxHops ∧ Leads rowLibrary 8 "a.A" rowClass ∧
    result (locateClass "a.A") rowLibrary = .error (.unresolved "Cannot resolve class a.A") := by
  have hleads : Leads rowLibrary 8 "a.A" rowClass := (passes_relay "a" "b" rfl rfl).leads leads_row
  exact ⟨by decide, hleads, (hleads.passedOn (by decide)).result_locateClass⟩

/-! ## The name of a class -/

theorem Leads.found (h : Leads r n name l) : Found r l := by
  induction h with
  | defined hname hc =>
    obtain ⟨-, hm⟩ := hname
    exact ⟨_, _, hm, hc⟩
  | imported _ _ _ _ ih => exact ih

variable (r name l) in
/-- A class has its name from its module, and is found by it after it was found by another one. -/
structure Canonical : Prop where
  load : result (loadModule l.module.name) r = .ok l.module
  listed : l.module.classes.get? l.cls.name = some l.cls
  qualified : l.cls.qualifiedName = l.module.name ++ "." ++ l.cls.name
  found : result (findClass l.cls.qualifiedName) r = .ok (some l)
  again : result (findClass l.cls.qualifiedName) (after (findClass name) r) = .ok (some l)

theorem canonical_of_sound (hr : r.Sound) (hl : result (findClass name) r = .ok (some l)) (hhome : l.module.name ≠ "") :
    Canonical r name l := by
  obtain ⟨_, _, hleads⟩ := result_findClass.1 hl
  obtain ⟨hload, hclass, -, hqualified⟩ := hleads.found.named hr
  have hempty : l.module.name.isEmpty = false := Bool.eq_false_iff.2 fun h => hhome (String.isEmpty_iff.1 h)
  have hfind : result (findClass l.cls.qualifiedName) r = .ok (some l) := by
    rw [hqualified]
    exact result_findClass_own hr hload hempty hclass
  refine ⟨hload, hclass, ?_, hfind, ?_⟩
  · rw [hqualified, qualify, hempty]
    rfl
  · have hreads : Reads (fun _ => True) (findClass name) := .findClass name
    rw [Reads.alike (.findClass _) (hreads.learned r).alike, hfind]

/-- Whatever happened to a library that holds everything in its place, as an opened one does (`stocked_openLibrary`),
and through however many modules a class is found: the class is the one that its module lists under the name of the
class, its qualified name is that of its module with its own after it, and this name leads to it too, before and after
the first search. -/
theorem result_findClass_canonical {r₀ r : Library} (hr₀ : r₀.Stocked) (hr : Becomes r₀ r)
    (hl : result (findClass name) r = .ok (some l)) (hhome : l.module.name ≠ "") :
    result (loadModule l.module.name) r = .ok l.module ∧
    l.module.classes.get? l.cls.name = some l.cls ∧
    l.cls.qualifiedName = l.module.name ++ "." ++ l.cls.name ∧
    result (findClass l.cls.qualifiedName) r = .ok (some l) ∧
    result (findClass l.cls.qualifiedName) (after (findClass name) r) = .ok (some l) :=
  have h := canonical_of_sound (hr.stocked hr₀).sound hl hhome
  ⟨h.load, h.listed, h.qualified, h.found, h.again⟩

theorem canonical_openLibrary {s : Settings} {root : String} {files texts : Entries String}
    (hr : Becomes (Infer.openLibrary s root files texts) r) (hl : result (findClass name) r = .ok (some l))
    (hhome : l.module.name ≠ "") : Canonical r name l :=
  canonical_of_sound hr.sound hl hhome

/-- A class that is passed on seven times, in a library that has loaded a module before. -/
theorem result_findClass_canonical_row :
    result (findClass "b.A") (after (loadModule "d") rowLibrary) = .ok (some rowClass) ∧
      rowClass.cls.qualifiedName = "i.A" ∧
      result (findClass "i.A") (after (loadModule "d") rowLibrary) = .ok (some rowClass) := by
  have hstocked : rowLibrary.Stocked := stocked_ofTexts (by decide +kernel)
  have hreads : Reads (fun _ => True) (loadModule "d") := .load "d"
  have hfind : result (findClass "b.A") (after (loadModule "d") rowLibrary) = .ok (some rowClass) := by
    rw [Reads.alike (.findClass _) (hreads.learned _).alike]
    exact result_findClass.2 ⟨7, by decide, leads_row⟩
  have hcanonical := result_findClass_canonical hstocked (.read .start hreads) hfind (by decide)
  exact ⟨hfind, rfl, hcanonical.2.2.2.1⟩

end ApiSchema
