import ApiSchema.Pattern.Basic
import ApiSchema.Value

/-!
Matching. `run` tries the ways in which a pattern can match from a place on, in order, and hands the
place after each to what has to follow, until that succeeds. `fullMatch` asks that a match takes the
whole text.

A match leaves a trace as it goes: the place where a repetition, an alternative or a condition was
tried last, and where groups start and end. A failed attempt leaves its trace to the next one. Inside
a repetition the groups are then set back; elsewhere only those groups are dropped that came after
all the others. A possessive repetition of more than single characters ends with an attempt that
fails, and what follows it goes on from the place that this attempt noted.
-/
namespace ApiSchema.Pattern

open Text

/-! ## Places -/

structure Trace where
  /-- The number of characters before the place that was noted last. -/
  noted : Nat := 0
  /-- Where each group starts and ends, two marks for a group, up to the last mark that was set. -/
  marks : List (Option Nat) := []

structure Place extends Trace where
  /-- The characters before the place, the nearest one first. -/
  before : List Char := []
  after : List Char
  index : Nat := 0

namespace Place

def advance (p : Place) : Place :=
  match p.after with
  | c :: rest => { p with before := c :: p.before, after := rest, index := p.index + 1 }
  | [] => p

def retreat (p : Place) : Place :=
  match p.before with
  | c :: rest => { p with before := rest, after := c :: p.after, index := p.index - 1 }
  | [] => p

def back : Nat → Place → Place
  | 0, p => p
  | n + 1, p => back n p.retreat

def forth : Nat → Place → Place
  | 0, p => p
  | n + 1, p => forth n p.advance

def moveTo (n : Nat) (p : Place) : Place :=
  if n < p.index then p.back (p.index - n) else p.forth (n - p.index)

def note (p : Place) : Place := { p with noted := p.index }

def mark (i : Nat) (p : Place) : Place :=
  let gap := List.replicate (i - p.marks.length) none
  { p with marks := (p.marks ++ gap).take i ++ [some p.index] ++ p.marks.drop (i + 1) }

/-- The mark where a group starts; the next one is where it ends. -/
def startMark (group : Nat) : Nat := 2 * (group - 1)

def captured? (p : Place) (group : Nat) : Option (List Char) :=
  match p.marks[startMark group]?, p.marks[startMark group + 1]? with
  | some (some a), some (some b) =>
    if a ≤ b then some (((p.before.reverse ++ p.after).drop a).take (b - a)) else none
  | _, _ => none

end Place

def anchorHolds (a : Anchor) (p : Place) : Bool :=
  let isWord := fun (ascii : Bool) (c : Option Char) => c.any (CharClass.word.has ascii)
  let atBoundary := fun (ascii : Bool) => isWord ascii p.before.head? != isWord ascii p.after.head?
  let isEmptyText := p.before.isEmpty && p.after.isEmpty
  match a with
  | .textStart => p.before.isEmpty
  | .lineStart => p.before.isEmpty || p.before.head? == some '\n'
  | .textEnd => p.after.isEmpty
  | .lastEnd => p.after.isEmpty || p.after == ['\n']
  | .lineEnd => p.after.isEmpty || p.after.head? == some '\n'
  | .boundary ascii => !isEmptyText && atBoundary ascii
  | .notBoundary ascii => !isEmptyText && !atBoundary ascii

/-! ## Attempts -/

inductive Outcome where
  | matched (p : Place)
  | failed (t : Trace)

abbrev Next := Place → Outcome

/-- The ways of a pattern from a place on. -/
abbrev Ways := Place → Next → Outcome

namespace Outcome

def orElse (o : Outcome) (f : Trace → Outcome) : Outcome :=
  match o with
  | .matched p => .matched p
  | .failed t => f t

/-- A failed attempt that leaves a place as the one noted last. -/
def noting (index : Nat) (o : Outcome) : Outcome :=
  o.orElse fun t => .failed { t with noted := index }

end Outcome

structure Context where
  /-- The character that comes next if the pattern matches. -/
  next : Option Nat := none
  /-- Whether the pattern stands in a repetition that can give back. -/
  repeating : Bool := false

/-- The marks after a failed attempt: those of before in a repetition, else as many as before. -/
def Context.setBack (c : Context) (before : List (Option Nat)) (t : Trace) : Trace :=
  { t with marks := if c.repeating then before else t.marks.take before.length }

/-- A failed attempt whose marks are set back. -/
def Context.undo (c : Context) (before : List (Option Nat)) (o : Outcome) : Outcome :=
  o.orElse fun t => .failed (c.setBack before t)

def Context.inner (c : Context) : Context := { c with next := none }

def fewer (most : Option Nat) : Option Nat := most.map (· - 1)

/-! ## Repeated characters -/

/-- Takes characters of a set while there are any, up to a limit; how many, and the place after. -/
def takeSet (s : CharSet) : Option Nat → Nat → List Char → Place → Nat × Place
  | _, n, [], p => (n, p)
  | most, n, c :: rest, p =>
    if most != some 0 && s.has c then takeSet s (fewer most) (n + 1) rest p.advance else (n, p)

/-- Tries a place, and then up to so many earlier ones. Where a character is known to come next, places
without it are passed over. -/
def giveBack (c : Context) (before : List (Option Nat)) (k : Next) : Nat → Place → Outcome
  | n, p =>
    let elsewhere := c.next.isSome && p.after.head?.map Char.toNat != c.next
    let here := if elsewhere then .failed p.toTrace else c.undo before (k p.note)
    match n with
    | 0 => here
    | n + 1 => here.orElse fun t => giveBack c before k n { p.retreat with toTrace := t }

/-- Tries a place, and then up to so many later ones. `more` tells whether yet another character could
be taken. -/
def takeMore (c : Context) (before : List (Option Nat)) (more : Bool) (k : Next) :
    Nat → Place → Outcome
  | 0, p =>
    Outcome.noting p.index <| (k p.note).orElse fun t =>
      .failed (if more then c.setBack before t else t)
  | n + 1, p =>
    (k p.note).orElse fun t =>
      takeMore c before more k n { p.advance with toTrace := c.setBack before t }

def runSet (c : Context) (greed : Greed) (least : Nat) (most : Option Nat) (s : CharSet) : Ways :=
  fun p k =>
    let (n, q) := takeSet s most 0 p.after p
    if p.after.length < least then .failed p.toTrace
    else if n < least then .failed p.note.toTrace
    else match greed with
      | .greedy => giveBack c p.marks k (n - least) { q with noted := p.index }
      | .lazy =>
        takeMore c p.marks (q.after.head?.any s.has) k (n - least) (q.back (n - least))
      | .possessive => k q.note

/-! ## Repeated patterns -/

/-- Repeats as often as possible first. A repetition that took nothing is the last one. -/
def greedyLoop (body : Ways) : Nat → Nat → Option Nat → Option Nat → Ways
  | 0, _, _, _, p, _ => .failed p.note.toTrace
  | fuel + 1, least, most, last, p, k =>
    let p := p.note
    Outcome.noting p.index <|
      if 0 < least then body p fun q => greedyLoop body fuel (least - 1) (fewer most) last q k
      else if most != some 0 && last != some p.index then
        (body p fun q => greedyLoop body fuel 0 (fewer most) (some p.index) q k).orElse fun _ => k p
      else k p

def lazyLoop (c : Context) (body : Ways) : Nat → Nat → Option Nat → Option Nat → Ways
  | 0, _, _, _, p, _ => .failed p.note.toTrace
  | fuel + 1, least, most, last, p, k =>
    let p := p.note
    Outcome.noting p.index <|
      if 0 < least then body p fun q => lazyLoop c body fuel (least - 1) (fewer most) last q k
      else (k p).orElse fun t =>
        let t := c.setBack p.marks t
        if most != some 0 && last != some p.index then
          body { p with marks := t.marks } fun q =>
            lazyLoop c body fuel 0 (fewer most) (some p.index) q k
        else .failed t

/-- Repeats as often as possible, each time in the first way only, and goes on from the place that the
last attempt noted. -/
def possessiveLoop (body : Ways) (start : Nat) : Nat → Nat → Option Nat → Option Nat → Ways
  | 0, _, _, _, p, _ => .failed { p.toTrace with noted := start }
  | fuel + 1, least, most, last, p, k =>
    let p := p.note
    if most == some 0 || (least == 0 && last == some p.index) then k p
    else match body p .matched with
      | .matched q =>
        let last := if least == 0 then some p.index else none
        possessiveLoop body start fuel (least - 1) (fewer most) last q k
      | .failed t =>
        if least == 0 then k (p.moveTo t.noted).note else .failed { t with noted := start }

def loop (c : Context) (greed : Greed) (body : Context → Ways) (fuel least : Nat)
    (most : Option Nat) : Ways := fun p k =>
  match greed with
  | .greedy => greedyLoop (body { repeating := true }) fuel least most none p k
  | .lazy => lazyLoop c (body { repeating := true }) fuel least most none p k
  | .possessive => possessiveLoop (body c.inner) p.index fuel least most none p k

/-! ## Patterns -/

def takeText (f : Folding) : List Char → Place → Option Place
  | [], p => some p
  | c :: cs, p =>
    match p.after with
    | d :: _ => if f.fold c.toNat == f.fold d.toNat then takeText f cs p.advance else none
    | [] => none

/-- The character that a pattern starts with, if it is just that; `after` comes after the pattern. -/
def firstChar? (after : Option Nat) : Pattern → Option Nat
  | .empty => after
  | .set s => s.single?
  | .seq a b => firstChar? (firstChar? after b) a
  | _ => none

def isEither : Pattern → Bool
  | .either _ _ => true
  | _ => false

/-- Whether a pattern starts with a set of characters that the next one is not in. -/
def startsElsewhere (c : Option Char) : Pattern → Bool
  | .set s => s.isPlain && !c.any s.has
  | .seq a _ => startsElsewhere c a
  | _ => false

/-- The first match of a pattern that what follows accepts. -/
def run : Pattern → Context → Ways
  | .empty, _, p, k => k p
  | .set s, _, p, k =>
    match p.after with
    | c :: _ => if s.has c then k p.advance else .failed p.toTrace
    | [] => .failed p.toTrace
  | .seq a b, c, p, k => run a { c with next := firstChar? c.next b } p fun q => run b c q k
  | .either a b, c, p, k =>
    let first :=
      if startsElsewhere p.after.head? a then .failed p.toTrace
      else c.undo p.marks (run a c.inner p.note k)
    first.orElse fun t =>
      let q := { p with toTrace := t }
      if startsElsewhere p.after.head? b then .failed t
      else if b.isEither then run b c.inner q k
      else c.undo p.marks (run b c.inner q.note k)
  | .times greed least most body, c, p, k =>
    match body with
    | .set s => runSet c greed least most s p k
    | body => loop c greed (run body) (least + p.after.length + 3) least most p k
  | .group i body, c, p, k =>
    run body c.inner (p.mark (Place.startMark i)) fun q => k (q.mark (Place.startMark i + 1))
  | .reference i f _ _, _, p, k =>
    match (p.captured? i).bind (takeText f · p) with
    | some q => k q
    | none => .failed p.toTrace
  | .anchor a, _, p, k => if anchorHolds a p then k p else .failed p.toTrace
  | .ahead negated body, c, p, k =>
    match run body c.inner p.note .matched with
    | .matched q => if negated then .failed q.note.toTrace else k { p with toTrace := q.note.toTrace }
    | .failed t => if negated then k { p with toTrace := c.setBack p.marks t } else .failed t
  | .behind negated body, c, p, k =>
    let n := body.width.1
    if p.index < n then (if negated then k p else .failed p.toTrace)
    else match run body c.inner (p.back n).note .matched with
      | .matched q =>
        if negated then .failed q.note.toTrace else k { p with toTrace := q.note.toTrace }
      | .failed t => if negated then k { p with toTrace := c.setBack p.marks t } else .failed t
  | .atomic body, c, p, k =>
    match run body c.inner p.note .matched with
    | .matched q => k q.note
    | .failed t => .failed { t with noted := p.index }
  | .ifGroup i yes no, c, p, k =>
    if (p.captured? i).isSome then run yes c.inner p k else run no c p k

def anyCrossed : List (Option Nat) → Bool
  | some a :: some b :: rest => decide (b < a) || anyCrossed rest
  | _ :: _ :: rest => anyCrossed rest
  | _ => false

/-- Whether a match takes a whole text. A match with a group that starts after its end is a fault. -/
def fullMatch (pattern : Pattern) (text : String) : Except Fault Bool :=
  match run pattern {} { after := text.toList } fun q =>
      if q.after.isEmpty then .matched q else .failed q.toTrace with
  | .matched q => if anyCrossed q.marks then .error .inconsistent else .ok true
  | .failed _ => .ok false

end ApiSchema.Pattern
