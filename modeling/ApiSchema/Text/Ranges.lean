/-!
Closed ranges of code points, the form in which a character class is written down.
-/
namespace ApiSchema.Text

abbrev Ranges := List (Nat × Nat)

def Ranges.has : Ranges → Nat → Bool
  | [], _ => false
  | (lo, hi) :: rest, n => if n < lo then false else n ≤ hi || Ranges.has rest n

/-- Ranges by the numbers of code points in the gap before each of them and in itself, in turn. -/
def Ranges.ofRuns (runs : List Nat) (start : Nat := 0) : Ranges :=
  match runs with
  | gap :: size :: rest => (start + gap, start + gap + size - 1) :: ofRuns rest (start + gap + size)
  | _ => []

end ApiSchema.Text
