/-!
# Linked lists

Instructions of a block and uses of a value are kept in doubly linked lists: an
owner knows its first and its last node and how many there are, and a node knows
its owner and its neighbours.  Linking and unlinking a node changes a few of these
links, and nothing checks that they fit together.
-/

namespace ShaderIR

/-- A function with another answer at one place. -/
def redefine {α β : Type} [DecidableEq α] (held : α → β) (place : α) (new : β) : α → β :=
  fun other => if other = place then new else held other

theorem redefine_apply
    {α β : Type}
    [DecidableEq α]
    (held : α → β)
    (place : α)
    (new : β)
    (other : α) :
    redefine held place new other = if other = place then new else held other := rfl

/-- The links of the nodes of all owners. -/
structure Links (Owner Node : Type) where
  first : Owner → Option Node := fun _ => none
  last : Owner → Option Node := fun _ => none
  count : Owner → Nat := fun _ => 0
  owner : Node → Option Owner := fun _ => none
  previous : Node → Option Node := fun _ => none
  next : Node → Option Node := fun _ => none

namespace Links

variable {Owner Node : Type} [DecidableEq Owner] [DecidableEq Node]

/-! ## Changing links -/

/-- What comes after a place in a list: after a node, or at the head. -/
def following (links : Links Owner Node) (owner : Owner) : Option Node → Option Node
  | none => links.first owner
  | some node => links.next node

/-- Let what is before a place in a list point to what comes after it. -/
def pointForward (links : Links Owner Node) (owner : Owner) (previous next : Option Node) :
    Links Owner Node :=
  match previous with
  | none => { links with first := redefine links.first owner next }
  | some node => { links with next := redefine links.next node next }

/-- Let what comes after a place in a list point back to what is before it. -/
def pointBackward (links : Links Owner Node) (owner : Owner) (next previous : Option Node) :
    Links Owner Node :=
  match next with
  | none => { links with last := redefine links.last owner previous }
  | some node => { links with previous := redefine links.previous node previous }

/-- Link a node into the list of an owner, after another node or at the head. -/
def insertAfter
    (links : Links Owner Node)
    (owner : Owner)
    (node : Node)
    (position : Option Node) :
    Links Owner Node :=
  let next := links.following owner position
  let links := links.pointForward owner position (some node)
  let links :=
    { links with
      previous := redefine links.previous node position
      next := redefine links.next node next }
  let links := links.pointBackward owner next (some node)
  { links with
    owner := redefine links.owner node (some owner)
    count := redefine links.count owner (links.count owner + 1) }

/-- Link a node behind the last one of an owner; a linked node stays where it is. -/
def push (links : Links Owner Node) (owner : Owner) (node : Node) : Links Owner Node :=
  match links.owner node with
  | some _ => links
  | none =>
    let last := links.last owner
    let links :=
      { links with
        previous := redefine links.previous node last
        next := redefine links.next node none }
    let links := links.pointForward owner last (some node)
    { links with
      last := redefine links.last owner (some node)
      owner := redefine links.owner node (some owner)
      count := redefine links.count owner (links.count owner + 1) }

/-- Unlink a node from the list of its owner; a node without owner stays as it is. -/
def unlink (links : Links Owner Node) (node : Node) : Links Owner Node :=
  match links.owner node with
  | none => links
  | some owner =>
    let previous := links.previous node
    let next := links.next node
    let links := links.pointForward owner previous next
    let links := links.pointBackward owner next previous
    { links with
      previous := redefine links.previous node none
      next := redefine links.next node none
      owner := redefine links.owner node none
      count := redefine links.count owner (links.count owner - 1) }

/-! ## Moving a node -/

/-- Move a node to the end of the list of an owner. -/
def append (links : Links Owner Node) (owner : Owner) (node : Node) : Links Owner Node :=
  let links := links.unlink node
  links.insertAfter owner node (links.last owner)

/-- Move a node to the head of the list of an owner. -/
def prepend (links : Links Owner Node) (owner : Owner) (node : Node) : Links Owner Node :=
  (links.unlink node).insertAfter owner node none

/-- Move a node right before a linked one. -/
def insertBefore (links : Links Owner Node) (node target : Node) : Links Owner Node :=
  match links.owner target with
  | none => links
  | some owner =>
    if target = node then links
    else
      let links := links.unlink node
      links.insertAfter owner node (links.previous target)

/-- Move a node right after a linked one. -/
def insertBehind (links : Links Owner Node) (node target : Node) : Links Owner Node :=
  match links.owner target with
  | none => links
  | some owner =>
    if target = node then links
    else (links.unlink node).insertAfter owner node (some target)

/-- Link nodes one after the other, each after the one before. -/
def insertAll (links : Links Owner Node) (owner : Owner) :
    Option Node → List Node → Links Owner Node
  | _, [] => links
  | position, node :: rest =>
    (links.insertAfter owner node position).insertAll owner (some node) rest

/-! ## Going along links -/

/-- At most so many nodes from one on, along the links to the next. -/
def forward (links : Links Owner Node) : Nat → Option Node → List Node
  | 0, _ | _, none => []
  | steps + 1, some node => node :: links.forward steps (links.next node)

/-- At most so many nodes from one on, along the links to the previous. -/
def backward (links : Links Owner Node) : Nat → Option Node → List Node
  | 0, _ | _, none => []
  | steps + 1, some node => node :: links.backward steps (links.previous node)

/-- All nodes from one on, unless there are more than so many: then the links may be circular. -/
def walk? (links : Links Owner Node) : Nat → Option Node → Option (List Node)
  | _, none => some []
  | 0, some _ => none
  | steps + 1, some node => (links.walk? steps (links.next node)).map (node :: ·)

end Links

end ShaderIR
