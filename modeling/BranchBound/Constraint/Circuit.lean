import BranchBound.Propagator

/-! # Circuit

The predecessor variables of `n` nodes form a single cycle through all nodes; the
predecessor of node `i` is the node that the cycle visits directly before `i`.

The fixed predecessors are arcs that form disjoint chains.  Trailed integers hold, for the
first node of a chain, its last node and its number of nodes, and for the last node its
first; so two chains are joined in constant time when an arc is fixed.  As long as a chain
does not visit every node, its last node is removed from the predecessors of its first.
Besides, every node has to be the predecessor of some node: one that is left in no domain
refutes, and one that is left in a single domain is assigned there.

Nodes whose predecessor became fixed wait in `pending` until they are joined.  The list is
not trailed; it is emptied when the space returns to an earlier level. -/
namespace BranchBound

structure Circuit where
  predecessors : Array Var
  /-- The number of the first of the `4 * n` trailed integers. -/
  firstCell : Nat := 0
  /-- The nodes whose predecessor became fixed, latest first. -/
  pending : List Nat := []
  deriving Repr, DecidableEq

namespace Circuit
variable (c : Circuit)

def numNodes : Nat := c.predecessors.size

def nodes : List Nat := List.range c.numNodes

/-- The predecessor variable of a node. -/
def predecessor (node : Nat) : Var := c.predecessors.getD node 0

/-- For the last node of a chain: the first node. -/
def chainStart (node : Nat) : Nat := c.firstCell + node

/-- For the first node of a chain: the last node. -/
def chainEnd (node : Nat) : Nat := c.firstCell + c.numNodes + node

/-- For the first node of a chain: the number of nodes. -/
def chainLength (node : Nat) : Nat := c.firstCell + 2 * c.numNodes + node

/-- Whether the arc into a node has been joined to the chains. -/
def merged (node : Nat) : Nat := c.firstCell + 3 * c.numNodes + node

/-- At first every node is a chain of its own. -/
def initialCells : List Int :=
  c.nodes.map Int.ofNat ++ c.nodes.map Int.ofNat ++ c.nodes.map (fun _ => 1) ++
    c.nodes.map (fun _ => 0)

/-- The node that a value of a predecessor variable stands for. -/
def node? (value : Int) : Option Nat :=
  (position? value).bind fun node => if node < c.numNodes then some node else none

/-- The pending nodes beside the space. -/
abbrev Step (α : Type) := EStateM Halt (List Nat × Space) α

def cell (i : Nat) : Step Int := fun (pending, s) => .ok (s.cells.value i) (pending, s)

def defer (node : Nat) : Step Unit := modify fun (pending, s) => (node :: pending, s)

/-- Removes a value from the predecessors of a node, which has to be joined if that fixes it. -/
def removePredecessor (node : Nat) (value : Int) : Step Unit := do
  let changed ← (Filter.remove (c.predecessor node) value).beside
  let fixed ← (Filter.read (·.isFixed (c.predecessor node))).beside
  if changed && fixed then defer node

/-- Joins the chain that ends in `source` to the chain that starts in `node`. -/
def join (source node : Nat) : Step Unit := do
  let first := (← cell (c.chainStart source)).toNat
  let last := (← cell (c.chainEnd node)).toNat
  let length ← cell (c.chainLength node)
  if first = node then
    if length < c.numNodes then refute (.conflict .prematureCycle)
  else
    let total := (← cell (c.chainLength first)) + length
    (Filter.assignCell (c.chainEnd first) last).beside
    (Filter.assignCell (c.chainStart last) first).beside
    (Filter.assignCell (c.chainLength first) total).beside
    if total < c.numNodes then c.removePredecessor first last

/-- Joins the fixed arc into a node, whose source is the predecessor of no other node. -/
def merge (node : Nat) : Step Unit := do
  let done ← cell (c.merged node)
  let source? ← (Filter.read (·.fixed? (c.predecessor node))).beside
  match done, source? with
  | 0, some source =>
    (Filter.assignCell (c.merged node) 1).beside
    (c.nodes.filter (· ≠ node)).forM fun other => c.removePredecessor other source
    c.join (← demand (c.node? source)) node
  | _, _ => pure ()

/-- The number of predecessor variables that can be `value`. -/
def support (s : Store) (value : Nat) : Nat :=
  c.nodes.countP fun node => s.contains (c.predecessor node) value

/-- Treats a node that is the predecessor of at most one node. -/
def assignOnly (value count : Nat) : Step Bool := do
  match count with
  | 0 => refute (.conflict .noSuccessor)
  | 1 =>
    let node? ← (Filter.read fun s =>
      c.nodes.find? fun node => s.contains (c.predecessor node) value).beside
    match node? with
    | none => return false
    | some node =>
      let changed ← (Filter.assign (c.predecessor node) value).beside
      if changed then defer node
      return changed
  | _ => return false

/-- Every node has to be the predecessor of some node. -/
def supports : Step Bool := do
  let counts ← (Filter.read fun s => c.nodes.map fun value => (value, c.support s value)).beside
  counts.foldlM (fun changed (value, count) => return (← c.assignOnly value count) || changed) false

/-- Joins a pending arc, or looks at the supports if there is none. -/
def round : Step Bool := do
  match (← get).1 with
  | node :: rest =>
    modify fun (_, s) => (rest, s)
    c.merge node
    return true
  | [] => c.supports

/-- A node becomes pending only when its variable loses a value. -/
def potential : List Nat × Space → Nat
  | (pending, s) => 2 * s.numValues + pending.length

def filter : Step Unit := do
  c.nodes.forM fun node => c.removePredecessor node node
  descend potential c.round

def propagate (s : Space) : EStateM.Result Halt (Circuit × Space) Unit :=
  match c.filter (c.pending, s) with
  | .ok _ (pending, s) => .ok () ({ c with pending }, s)
  | .error e (pending, s) => .error e ({ c with pending }, s)

def watches : List (Var × List Event) := c.predecessors.toList.map fun v => (v, Event.any)

/-- The nodes that are fixed from the start are pending, the last node first. -/
def attach (firstCell : Nat) (s : Store) : Circuit :=
  { c with
    firstCell
    pending := (c.nodes.filter fun node => s.isFixed (c.predecessor node)).reverse }

def notify (node : Nat) (event : Event) : Circuit :=
  if event = .assign then { c with pending := node :: c.pending } else c

def synchronise : Circuit := { c with pending := [] }

end Circuit
end BranchBound
