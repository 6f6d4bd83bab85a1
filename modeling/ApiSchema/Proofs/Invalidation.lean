import ApiSchema.Proofs.Drawn
import ApiSchema.Proofs.Registration

/-!
# New texts

A text that takes the place of a module drops all kept schemas if the module was loaded. If it was not, the schemas
stay, and they are still those of the library as long as the module was there and could be loaded: nothing was made of
it, since what is made of a module loads it (`recomputed_addText`).

A schema may have been made of there being no such module, or of its not being readable, and then it is stale
(`stale_addText`).
-/
namespace ApiSchema

open Source Infer

variable {t : Infer.Tables} {s : Settings}

/-! ## A module in the place of another -/

theorem addText_eq (l : Library) (path text : String) :
    ∃ packages o, l.addText path text = l.addOutcome (moduleNameOf path) packages o ∧
      Yields (Module.Named (moduleNameOf path)) o :=
  ⟨_, _, rfl, named_readModule _ _ _ _⟩

/-- The library has a module that it can load, or fails at with a problem that no handler takes. -/
structure Idle (l : Library) (name : String) : Prop where
  present : l.hasModule name = true
  hard : ∀ p, result (loadModule name) l = .error p → p.isAbsorbed = false

section

variable {l : Library} {name : String} {packages : List String} {o : Except ReadError Source.Module}

theorem schemas_addOutcome (h : l.cache.modules.has name = true) :
    (l.addOutcome name packages o).cache.schemas = [] := by
  change (l.cache.invalidate name).schemas = []
  rw [Cache.invalidate, if_pos h]

theorem get?_of_addOutcome {key : String} {n : Node}
    (h : (l.addOutcome name packages o).cache.schemas.get? key = some n) :
    l.cache.schemas.get? key = some n := by
  change (l.cache.invalidate name).schemas.get? key = some n at h
  unfold Cache.invalidate at h
  split at h
  · cases h
  · rw [Entries.get?_filter l.cache.schemas fun key => Cache.subjectOf key != name] at h
    split at h
    · exact h
    · cases h

theorem retold_addOutcome : Retold name o l (l.addOutcome name packages o) where
  text := Entries.get?_set_self _ _ _
  texts _ hn := Entries.get?_set_ne _ _ hn
  unloaded := by
    change (l.cache.invalidate name).modules.get? name = none
    unfold Cache.invalidate
    split
    · exact (Entries.get?_erase _ _ _).trans (if_pos rfl)
    · exact Option.not_isSome_iff_eq_none.1 ‹_›
  modules other hn := by
    change (l.cache.invalidate name).modules.get? other = _
    unfold Cache.invalidate
    split
    · exact (Entries.get?_erase _ _ _).trans (if_neg hn)
    · rfl
  rest := ⟨rfl, rfl, rfl, rfl⟩

theorem Idle.kin (h : Idle l name) : Kin (· = name) True l (l.addOutcome name packages o) :=
  retold_addOutcome.kin h.present fun p hp => ⟨trivial, h.hard p hp⟩

theorem Idle.sequel (h : Idle l name) (hl : l.cache.modules.has name = false) :
    Sequel l (l.addOutcome name packages o) := retold_addOutcome.sequel h.kin hl (.of_alike (.refl _))

/-- Nothing that is kept was made of a module that was not loaded, and what was loaded drops all. -/
theorem Drawn.addOutcome (hdrawn : Drawn l) (hstored : Stored t s l) (hsound : l.Sound)
    (hsound' : (l.addOutcome name packages o).Sound) : Drawn (l.addOutcome name packages o) := by
  intro d direction n hd hn
  have hget := get?_of_addOutcome hn
  cases hl : l.cache.modules.has name with
  | true =>
    rw [schemas_addOutcome hl] at hn
    cases hn
  | false =>
    obtain ⟨d', direction', hd', hkey⟩ := hstored.owned hget
    have hne := hdrawn.ne hd' (hkey.symm ▸ hget) hl
    have hfound := (retold_addOutcome.found_iff hsound hsound' hne).2 hd'
    obtain ⟨rfl, rfl⟩ := hfound.eq_of_key hsound' hd hkey
    rw [Entries.has, retold_addOutcome.modules _ hne]
    exact hdrawn d' direction' n hd' hget

end

/-! ## Histories of requests and texts -/

/-- A text may be given for a module that was loaded, or that could be. -/
def Replaceable (l : Library) (name : String) : Prop := l.cache.modules.has name = true ∨ Idle l name

/-- The libraries that requests and texts lead to. -/
inductive Maintained (t : Infer.Tables) (s : Settings) : Library → Prop
  | opened {l : Library} (h : l.cache = { enabled := true }) (hsound : l.Sound) (htidy : Tidy t s l) : Maintained t s l
  | asked {l : Library} (hl : Maintained t s l) (q : Request) : Maintained t s (after (q.answer t s) l)
  | added {l : Library} (hl : Maintained t s l) {path text : String} (h : Replaceable l (moduleNameOf path))
    (htidy : Tidy t s (l.addText path text)) : Maintained t s (l.addText path text)

/-- What holds of a library whatever was asked and given: the kept schemas are settled, and those of modules that were
loaded. -/
structure Upheld (t : Infer.Tables) (s : Settings) (l : Library) : Prop where
  sound : l.Sound
  tidy : Tidy t s l
  stored : Stored t s l
  drawn : Drawn l

theorem Maintained.upheld {l : Library} (h : Maintained t s l) : Upheld t s l := by
  induction h with
  | @opened l h hsound htidy =>
    have hempty : l.cache.schemas = [] := by rw [h]
    refine ⟨hsound, htidy, stored_of_empty hempty, fun d direction n _ hn => ?_⟩
    rw [hempty] at hn
    cases hn
  | @asked l _ q ih =>
    obtain ⟨halike, hstored⟩ := stored_answer ih.sound ih.tidy ⟨.refl l, ih.stored⟩ q
    exact ⟨ih.sound.alike halike, ih.tidy.alike halike, hstored, drawn_answer ih.sound ih.tidy ih.stored ih.drawn q⟩
  | @added l _ path text h htidy ih =>
    obtain ⟨packages, o, hadd, ho⟩ := addText_eq l path text
    rw [hadd] at htidy ⊢
    have hsound : (l.addOutcome (moduleNameOf path) packages o).Sound := retold_addOutcome.sound ih.sound ho
    refine ⟨hsound, htidy, ?_, ih.drawn.addOutcome ih.stored ih.sound hsound⟩
    cases hl : l.cache.modules.has (moduleNameOf path) with
    | true => exact stored_of_empty (schemas_addOutcome hl)
    | false =>
      have hidle : Idle l (moduleNameOf path) := h.resolve_left fun h => Bool.false_ne_true (hl.symm.trans h)
      exact ih.stored.retold ih.drawn ih.sound hsound retold_addOutcome hidle.kin hl get?_of_addOutcome

/-- The library with its cache switched off. -/
def Library.switchedOff (l : Library) : Library := { l with cache := { l.cache with enabled := false } }

theorem alike_switchedOff (l : Library) : Alike l l.switchedOff :=
  alike_knowing (c := { l.cache with enabled := false }) (k := l.counts) rfl

/-- Two libraries that come after one in which a schema of a class is settled give the class the same schema. -/
theorem Settled.outermost_eq {l : Library} {d : Located} {direction : Direction} {n : Node}
    (h : Settled t s l d direction n) (hn : n.hasPlaceholder = false) {r : Bool → Library} (hr : ∀ b, Sequel l (r b)) :
    (∃ b, Fatal (result (outermost t s d direction) (r b).switchedOff)) ∨
      result (outermost t s d direction) (r true).switchedOff =
        result (outermost t s d direction) (r false).switchedOff := by
  unfold outermost
  rcases classSchema_cases t s s.maxDepth.toNat [] d direction with ⟨m, hm, -⟩ | ⟨k, -, hk⟩
  · rw [hm]
    exact .inr rfl
  · have hoff : ∀ b, Sequel l (r b).switchedOff ∧ (r b).switchedOff.cache.enabled = false := fun b =>
      ⟨(hr b).later (alike_switchedOff _), rfl⟩
    have hrun : ∀ b, result (classSchema t s s.maxDepth.toNat [] d direction) (r b).switchedOff =
        result (composedSchema t s (classSchema t s k [d.cls.qualifiedName]) d direction) (r b).switchedOff := fun b =>
      hk ▸ (run_expanded_off _ rfl (composed_off ⟨.refl _, rfl⟩ k _ d direction).2).1
    simp only [hrun]
    refine (h k _ _ hoff).imp_right fun ⟨m, hm, hshaped, _⟩ => ?_
    have hL : Congruent fun ns : Option Bool → Node => (ns none).Cut ∨ ns (some false) = ns (some true) :=
      (Congruent.eq (some false) (some true)).orCut none
    rcases hshaped.grown.collapse hL.toFormed fun ns hns => hns.imp Marked.cut fun h => h.2 with hcut | heq
    · exact absurd (hn.symm.trans hcut.hasPlaceholder) Bool.false_ne_true
    · rw [hm true, hm false]
      exact congrArg Except.ok heq.symm

/-- Every schema that the second library keeps is that of a class of both. Made anew, the class has the same schema in
both, unless making it ends in a problem that no handler takes. -/
def Recomputed (t : Infer.Tables) (s : Settings) (l r : Library) : Prop :=
  ∀ key n, r.cache.schemas.get? key = some n → ∃ d direction, Found l d ∧ Found r d ∧ d.key direction = key ∧
    let before := result (outermost t s d direction) l.switchedOff
    let now := result (outermost t s d direction) r.switchedOff
    Fatal before ∨ Fatal now ∨ now = before

theorem Maintained.recomputed {l : Library} (hl : Maintained t s l) {path : String} (text : String)
    (h : Replaceable l (moduleNameOf path)) : Recomputed t s l (l.addText path text) := by
  intro key n hn
  obtain ⟨hsound, -, hstored, hdrawn⟩ := hl.upheld
  obtain ⟨packages, o, hadd, ho⟩ := addText_eq l path text
  rw [hadd] at hn ⊢
  have hget := get?_of_addOutcome hn
  obtain ⟨d, direction, hd, rfl⟩ := hstored.owned hget
  cases hl : l.cache.modules.has (moduleNameOf path) with
  | true =>
    rw [schemas_addOutcome hl] at hn
    cases hn
  | false =>
    have hidle : Idle l (moduleNameOf path) := h.resolve_left fun h => Bool.false_ne_true (hl.symm.trans h)
    have hfound : Found (l.addOutcome (moduleNameOf path) packages o) d :=
      (retold_addOutcome.found_iff hsound (retold_addOutcome.sound hsound ho) (hdrawn.ne hd hget hl)).2 hd
    refine ⟨d, direction, hd, hfound, rfl, ?_⟩
    have hboth : ∀ b, Sequel l (cond b (l.addOutcome (moduleNameOf path) packages o) l) := by
      rintro (_ | _)
      · exact .of_alike (.refl _)
      · exact hidle.sequel hl
    rcases (hstored.settled hget d direction hd rfl).outermost_eq (hstored.unmarked hget) hboth with ⟨b, hf⟩ | heq
    · cases b with
      | false => exact .inl hf
      | true => exact .inr (.inl hf)
    · exact .inr (.inr heq)

/-- Every schema that is kept after a text has been given is that of a class that is still there. Made anew, the class
has the same schema as before the text, unless making it ends in a problem that no handler takes. -/
theorem recomputed_addText (t : Infer.Tables) (s : Settings) (l : Library) (hl : Maintained t s l) (path text : String)
    (h : Replaceable l (moduleNameOf path)) (key : String) (n : Node)
    (hn : (l.addText path text).cache.schemas.get? key = some n) :
    ∃ d direction, Found l d ∧ Found (l.addText path text) d ∧ d.key direction = key ∧
      let before := result (outermost t s d direction) l.switchedOff
      let now := result (outermost t s d direction) (l.addText path text).switchedOff
      Fatal before ∨ Fatal now ∨ now = before :=
  hl.recomputed text h key n hn

/-! ## Opened libraries -/

section

variable (hs : s.cacheEnabled = true) (root : String) (files texts : Entries String)
  (htidy : Tidy t s (openLibrary s root files texts))

include hs htidy

theorem maintained_openLibrary : Maintained t s (openLibrary s root files texts) :=
  .opened (by rw [openLibrary_cache, hs]) (sound_openLibrary s root files texts) htidy

theorem recomputed_openLibrary (qs : List Request) (path text : String) :
    let l := afterRequests t s qs (openLibrary s root files texts)
    Replaceable l (moduleNameOf path) → Recomputed t s l (l.addText path text) := by
  intro l h
  have hl : Maintained t s l :=
    List.foldlRecOn (motive := Maintained t s) _ _ (maintained_openLibrary hs root files texts htidy)
      fun _ hl q _ => hl.asked q
  exact hl.recomputed text h

end

/-- A module with one class, which has one field. -/
def lone (name short : String) : Source.Module where
  name := name
  classes := [(short, { recordOf short [("x", "int")] with qualifiedName := name ++ "." ++ short })]

/-- Two modules that do not know of each other. -/
def apart : Library := .ofTexts [("m", .ok (lone "m" "A")), ("k", .ok (lone "k" "E"))]

/-- After `m.A` was asked for, `k` gets a new text. -/
theorem apart_recomputed_addText :
    let l := after (Request.answer {} {} (.output "m.A")) apart
    Maintained {} {} l ∧ Replaceable l (moduleNameOf "k.py") ∧
      ∃ n, (l.addText "k.py" "class E: pass").cache.schemas.get? "m.A" = some n ∧
        ∃ d direction, Found l d ∧ Found (l.addText "k.py" "class E: pass") d ∧ d.key direction = "m.A" ∧
          let before := result (outermost {} {} d direction) l.switchedOff
          let now := result (outermost {} {} d direction) (l.addText "k.py" "class E: pass").switchedOff
          Fatal before ∨ Fatal now ∨ now = before := by
  intro l
  have hsound : apart.Sound := sound_ofTexts (by decide +kernel)
  have htidy : Tidy {} {} apart := tidy_of_operandless (by decide +kernel)
  have hl : Maintained {} {} l := (Maintained.opened rfl hsound htidy).asked (.output "m.A")
  have halike : Alike apart l := (stored_answer hsound htidy ⟨.refl _, stored_of_empty rfl⟩ (.output "m.A")).1
  have hload : result (loadModule (moduleNameOf "k.py")) l = .ok (lone "k" "E") := halike.outcome "k"
  have hk : Idle l (moduleNameOf "k.py") :=
    ⟨hl.upheld.sound.has _ _ hload, fun p hp => by cases hload.symm.trans hp⟩
  have hsome : ((l.addText "k.py" "class E: pass").cache.schemas.get? "m.A").isSome = true := by decide +kernel
  obtain ⟨n, hget⟩ := Option.isSome_iff_exists.1 hsome
  exact ⟨hl, .inr hk, n, hget, recomputed_addText {} {} l hl "k.py" "class E: pass" (.inr hk) "m.A" n hget⟩

/-! ## Stale schemas -/

/-- A class `A` that has a `D` of another module. -/
def looking : Source.Module := moduleOf [recordOf "A" [("d", "n.D")]]

/-- The library after `A` was asked for. -/
def askedForA (r : Library) : Library := after (Request.answer {} {} (.output "m.A")) r

/-- The schema that `A` has by itself. -/
def schemaOfA (r : Library) : Attempt Node :=
  result (outermost {} {} ⟨looking, recordOf "A" [("d", "n.D")]⟩ .output) r.switchedOff

/-- The number of properties of the `d` in a schema. -/
def innerWidth (x : Attempt Node) : Option Nat :=
  x.toOption.bind fun n => (n.properties.get? "d").map fun d => d.properties.length

/-- The library with the module of `A`, and with an outcome for the module `n` if there is one. -/
def lookingFor (o : Option ReadError) : Library where
  texts := ("m", .ok looking) :: o.toList.map fun e => ("n", .error e)

/-- Whatever text has the class `A`: alone, and with a text that cannot be read. -/
theorem openLibrary_looking {m : String} (hm : readModule (Text.toBytes m) "m" false false = .ok looking) :
    openLibrary {} "" [] [("m.py", m)] = lookingFor none ∧
      openLibrary {} "" [] [("m.py", m), ("n.py", "\x00")] = lookingFor (some .binary) := by
  have hempty : openLibrary {} "" [] [] = {} := indexFolder_of_empty rfl
  have hfirst : (openLibrary {} "" [] []).addText "m.py" m = lookingFor none :=
    hempty ▸ addText_of_read "m.py" "m" (by decide +kernel) ⟨rfl, rfl⟩ hm
  have hfails : readModule (Text.toBytes "\x00") "n" false false = .error .binary := by
    rw [readModule, if_pos (by decide +kernel)]
    rfl
  refine ⟨hfirst, ?_⟩
  change ((openLibrary {} "" [] []).addText "m.py" m).addText "n.py" "\x00" = _
  rw [hfirst]
  exact addText_of_read "n.py" "n" (by decide +kernel) ⟨rfl, rfl⟩ hfails

/-- A schema of `A` stays when a text gives the module `n` with the class `D`, and is not the schema that `A` has
then. -/
def Stale (l : Library) : Prop :=
  Maintained {} {} l ∧
    let given := l.addOutcome "n" [] (.ok (lone "n" "D"))
    (∀ n, readModule (Text.toBytes n) "n" false false = .ok (lone "n" "D") → l.addText "n.py" n = given) ∧
      (given.cache.schemas.get? "m.A").isSome = true ∧ schemaOfA given ≠ schemaOfA l

/-- A schema is stale that was made when there was no module `n`, or when it could not be read. -/
theorem stale_addText :
    (∀ m, readModule (Text.toBytes m) "m" false false = .ok looking →
      openLibrary {} "" [] [("m.py", m)] = lookingFor none ∧
        openLibrary {} "" [] [("m.py", m), ("n.py", "\x00")] = lookingFor (some .binary)) ∧
    Stale (askedForA (lookingFor none)) ∧ Stale (askedForA (lookingFor (some .binary))) := by
  have hrun : ∀ o ∈ [none, some ReadError.binary],
      ((lookingFor o).texts.all fun e => e.2.toOption.all (·.isNamed e.1)) = true ∧ Operandless (lookingFor o) ∧
      ((askedForA (lookingFor o)).packages = [] ∧ (askedForA (lookingFor o)).allowPartial = false) ∧
      let given := (askedForA (lookingFor o)).addOutcome "n" [] (.ok (lone "n" "D"))
      (given.cache.schemas.get? "m.A").isSome = true ∧ innerWidth (schemaOfA given) = some 1 ∧
        innerWidth (schemaOfA (askedForA (lookingFor o))) = some 0 := by decide +kernel
  have hstale : ∀ o ∈ [none, some ReadError.binary], Stale (askedForA (lookingFor o)) := by
    intro o ho
    obtain ⟨hnamed, htidy, hplain, hkept, hwidth, hwidth'⟩ := hrun o ho
    have hopened : Maintained {} {} (lookingFor o) := .opened rfl (sound_ofTexts hnamed) (tidy_of_operandless htidy)
    refine ⟨hopened.asked _, fun n => addText_of_read "n.py" "n" (by decide +kernel) hplain, hkept, fun h => ?_⟩
    rw [h, hwidth'] at hwidth
    cases hwidth
  exact ⟨fun m => openLibrary_looking, hstale none (.head _), hstale (some .binary) (.tail _ (.head _))⟩

end ApiSchema
