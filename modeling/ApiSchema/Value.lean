import ApiSchema.Number.Decimal
import ApiSchema.Text.Cut
import ApiSchema.Text.Quoted

/-!
Literal values as they stand in analysed source code: numbers, texts, containers, and expressions
that are no literals and are kept as text. The text of a value is the one the source language
prints for it.
-/
namespace ApiSchema

inductive Value where
  | null
  | bool (b : Bool)
  | int (n : Int)
  | float (x : Double)
  | complex (re im : Double)
  | str (s : String)
  | bytes (bs : List Nat)
  | ellipsis
  | list (xs : List Value)
  | tuple (xs : List Value)
  | dict (entries : List (Value × Value))
  /-- An expression that is no literal, by its text. -/
  | expr (text : String)
deriving Inhabited

inductive Fault where
  /-- The operation is not defined for values of this kind. -/
  | mismatch
  /-- The value has the right kind and no result. -/
  | invalid
  /-- The result is beyond every number. -/
  | overflow
  | noPart
  /-- A name that stands for nothing. -/
  | noName
  /-- A position that nothing stands at. -/
  | noPosition
  /-- A result that contradicts itself. -/
  | inconsistent
deriving DecidableEq, Repr

/-! ## Repeated text -/

namespace Text

def maxLength : Nat := 9223372036854775807

/-- How many characters a text has after it was repeated often enough to be cut to `n`; an empty one counts as one. -/
def stretched (sample : List Char) (n : Int) : Nat := ((n / max sample.length 1 + 1) * max sample.length 1).toNat

/-- A text repeated without end and cut to `n` characters. The number of repetitions and their length before the cut are
limited. -/
def cycle (sample : List Char) (n : Int) : Except Fault (List Char) :=
  let times := n / max sample.length 1 + 1
  if -(maxLength + 1) ≤ times ∧ stretched sample n ≤ maxLength then
    .ok (((List.replicate times.toNat sample).flatten).take n.toNat)
  else .error .overflow

theorem stretched_natCast (sample : List Char) (n : Nat) :
    stretched sample n = (n / max sample.length 1 + 1) * max sample.length 1 := by
  rw [stretched, ← Int.natCast_ediv, ← Int.natCast_add_one, ← Int.natCast_mul, Int.toNat_natCast]

theorem stretched_le (sample : List Char) (n : Nat) : stretched sample n ≤ n + max sample.length 1 := by
  rw [stretched_natCast, Nat.add_mul, Nat.one_mul]
  exact Nat.add_le_add_right (Nat.div_mul_le_self n _) _

theorem cycle_of_lt {sample : List Char} {n : Int} (h : maxLength < stretched sample n) :
    cycle sample n = .error .overflow :=
  if_neg fun hle => Nat.not_le.2 h hle.2

theorem cycle_of_le {sample : List Char} {n : Nat} (h : stretched sample n ≤ maxLength) :
    cycle sample n = .ok ((List.replicate (n / max sample.length 1 + 1) sample).flatten.take n) := by
  have hlow : -(maxLength + 1 : Int) ≤ (n / max sample.length 1 + 1 : Nat) :=
    Int.le_trans (by omega) (Int.natCast_nonneg _)
  exact if_pos ⟨hlow, h⟩

theorem exists_cycle {sample : List Char} (hne : sample ≠ []) {n : Nat} (h : stretched sample n ≤ maxLength) :
    ∃ cs, cycle sample n = .ok cs ∧ cs.length = n ∧ ∀ c ∈ cs, c ∈ sample := by
  have hpos : 1 ≤ sample.length := List.length_pos_iff.2 hne
  refine ⟨_, cycle_of_le h, ?_, fun c hc => ?_⟩
  · have hlong := Nat.lt_mul_div_succ n hpos
    rw [Nat.max_eq_left hpos, List.length_take, List.length_flatten, List.map_replicate, List.sum_replicate_nat,
      Nat.mul_comm]
    omega
  · obtain ⟨cs, hcs, hc⟩ := List.mem_flatten.1 (List.mem_of_mem_take hc)
    exact List.eq_of_mem_replicate hcs ▸ hc

end Text

namespace Value

def isNull : Value → Bool
  | .null => true
  | _ => false

def isExpr : Value → Bool
  | .expr _ => true
  | _ => false

def str? : Value → Option String
  | .str s => some s
  | _ => none

def elements? : Value → Option (List Value)
  | .list xs | .tuple xs => some xs
  | _ => none

/-- Zeros, empty texts and empty containers count as false. -/
def truthy : Value → Bool
  | .null => false
  | .bool b => b
  | .int n => n != 0
  | .float x => !x.isZero
  | .complex re im => !(re.isZero && im.isZero)
  | .str s => !s.isEmpty
  | .bytes bs => !bs.isEmpty
  | .ellipsis => true
  | .list xs | .tuple xs => !xs.isEmpty
  | .dict es => !es.isEmpty
  | .expr _ => true

/-! ## Equality

Numbers are equal by value, whatever their kind, and the two truth values count as one and zero. -/

/-- The real and the imaginary part of a number, whole where possible. -/
inductive Numeric where
  | whole (n : Int)
  | real (x : Double)
  | imaginary (re im : Double)

def numeric? : Value → Option Numeric
  | .bool b => some (.whole (if b then 1 else 0))
  | .int n => some (.whole n)
  | .float x => some (.real x)
  | .complex re im => some (if im.isZero then .real re else .imaginary re im)
  | _ => none

def Numeric.same : Numeric → Numeric → Bool
  | .whole a, .whole b => a == b
  | .whole a, .real y => y.sameInt a
  | .real x, .whole b => x.sameInt b
  | .real x, .real y => x.same y
  | .imaginary a b, .imaginary c d => a.same c && b.same d
  | _, _ => false

mutual

def same : Value → Value → Bool
  | .null, .null => true
  | .str s, .str t | .bytes s, .bytes t => s == t
  | .ellipsis, .ellipsis => true
  | .list xs, .list ys | .tuple xs, .tuple ys => sameAll xs ys
  | .dict es, .dict fs => es.length == fs.length && sameEntries es fs
  | .expr s, .expr t => s == t
  | .bool b, w => sameNumber (.bool b) w
  | .int n, w => sameNumber (.int n) w
  | .float x, w => sameNumber (.float x) w
  | .complex a b, w => sameNumber (.complex a b) w
  | _, _ => false

def sameNumber (v w : Value) : Bool :=
  match numeric? v, numeric? w with
  | some a, some b => a.same b
  | _, _ => false

def sameAll : List Value → List Value → Bool
  | [], [] => true
  | x :: xs, y :: ys => same x y && sameAll xs ys
  | _, _ => false

/-- Every entry of the first list has an equal entry in the second. -/
def sameEntries : List (Value × Value) → List (Value × Value) → Bool
  | [], _ => true
  | (k, v) :: rest, fs => sameIn k v fs && sameEntries rest fs

def sameIn (k v : Value) : List (Value × Value) → Bool
  | [] => false
  | (l, w) :: rest => (same k l && same v w) || sameIn k v rest

end

mutual

def hashable : Value → Bool
  | .list _ | .dict _ => false
  | .tuple xs => hashableAll xs
  | _ => true

def hashableAll : List Value → Bool
  | [] => true
  | x :: xs => hashable x && hashableAll xs

end

/-- The entry of a key in place of the old value, the first key kept, or a new entry at the end. -/
def setEntry : List (Value × Value) → Value → Value → List (Value × Value)
  | [], key, value => [(key, value)]
  | (k, v) :: rest, key, value =>
    if same k key then (k, value) :: rest else (k, v) :: setEntry rest key value

def lookup? (es : List (Value × Value)) (key : Value) : Option Value :=
  (es.find? fun e => same e.1 key).map (·.2)

/-! ## Text -/

/-- A complex number: the imaginary part alone when the real part is the positive zero. -/
def complexText (re im : Double) : String :=
  let part := fun (x : Double) => x.textIn .bare
  if re.isZero && !re.isNegative then part im ++ "j"
  else
    let sign := if (part im).startsWith "-" then "" else "+"
    "(" ++ part re ++ sign ++ part im ++ "j)"

mutual

def literalText : Value → String
  | .null => "None"
  | .bool b => if b then "True" else "False"
  | .int n => toString n
  | .float x => x.text
  | .complex re im => complexText re im
  | .str s => Text.quoted s
  | .bytes bs => Text.quotedBytes bs
  | .ellipsis => "Ellipsis"
  | .list xs => "[" ++ Text.join ", " (literalTexts xs) ++ "]"
  | .tuple [x] => "(" ++ literalText x ++ ",)"
  | .tuple xs => "(" ++ Text.join ", " (literalTexts xs) ++ ")"
  | .dict es => "\x7b" ++ Text.join ", " (entryTexts es) ++ "\x7d"
  | .expr t => "Expression(text=" ++ Text.quoted t ++ ")"

def literalTexts : List Value → List String
  | [] => []
  | x :: xs => literalText x :: literalTexts xs

def entryTexts : List (Value × Value) → List String
  | [] => []
  | (k, v) :: rest => (literalText k ++ ": " ++ literalText v) :: entryTexts rest

end

/-- The text of a value: a text is itself and anything else its literal. -/
def text : Value → String
  | .str s => s
  | v => literalText v

/-- The least whole number that has too many digits to be written out. -/
def digitBound : Nat := Nat.pow 10 4300

mutual

/-- Whether all whole numbers in a value can be written out. -/
def isSpelled : Value → Bool
  | .int n => n.natAbs < digitBound
  | .list xs | .tuple xs => areSpelled xs
  | .dict es => entriesSpelled es
  | _ => true

def areSpelled : List Value → Bool
  | [] => true
  | x :: xs => isSpelled x && areSpelled xs

def entriesSpelled : List (Value × Value) → Bool
  | [] => true
  | (k, v) :: rest => isSpelled k && isSpelled v && entriesSpelled rest

end

/-- The text of a value, if it can be written out. -/
def spell (v : Value) : Except Fault String := if v.isSpelled then .ok v.text else .error .invalid

@[simp] theorem spell_str (s : String) : spell (.str s) = .ok s := rfl

theorem text_of_spell {v : Value} {s : String} (h : v.spell = .ok s) : v.text = s := by
  unfold spell at h
  split at h
  · exact Except.ok.inj h
  · cases h

end Value
end ApiSchema
