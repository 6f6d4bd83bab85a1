import ApiSchema.Schema.Node

/-!
Walking a schema: the node and all its descendants, each one before its children. The walk keeps a
list of nodes to visit and puts the children of a node in front of it.
-/
namespace ApiSchema.Node

mutual

def size : Node → Nat
  | .scalar _ _ => 1
  | .array _ items => 1 + size items
  | .object _ props => 1 + sizeOfProperties props
  | .union _ v vs => 1 + size v + sizeOfVariants vs

def sizeOfProperties : List (String × Node) → Nat
  | [] => 0
  | (_, n) :: rest => size n + sizeOfProperties rest

def sizeOfVariants : List Node → Nat
  | [] => 0
  | n :: rest => size n + sizeOfVariants rest

end

theorem sizeOfVariants_append (xs ys : List Node) :
    sizeOfVariants (xs ++ ys) = sizeOfVariants xs + sizeOfVariants ys := by
  induction xs with
  | nil => simp [sizeOfVariants]
  | cons x xs ih => simp [sizeOfVariants, ih, Nat.add_assoc]

theorem sizeOfVariants_map (props : List (String × Node)) :
    sizeOfVariants (props.map (·.2)) = sizeOfProperties props := by
  induction props with
  | nil => rfl
  | cons p props ih => simp [sizeOfVariants, sizeOfProperties, ih]

theorem size_eq (n : Node) : n.size = 1 + sizeOfVariants n.children := by
  cases n <;> simp [size, children, sizeOfVariants, sizeOfVariants_map, Nat.add_assoc]

/-- The nodes to visit and their descendants, in the order of the visit. -/
def walkFrom : List Node → List Node
  | [] => []
  | n :: pending => n :: walkFrom (n.children ++ pending)
termination_by pending => sizeOfVariants pending
decreasing_by
  rw [sizeOfVariants_append, sizeOfVariants, size_eq]
  omega

def walk (n : Node) : List Node := walkFrom [n]

/-- Whether the node or a descendant stands for a type that was not expanded. -/
def hasPlaceholder (n : Node) : Bool := n.walk.any isPlaceholder

end ApiSchema.Node
