import FlowScript.Emission.Region

/-!
# Following the flow of execution

A node is entered, written, and followed by its successors. A conditional or a loop with an input
becomes a block: the targets of its labelled branches go into the arms of the block, and its other
successors and the nodes that were held back follow after the block is closed.
-/

namespace FlowScript

/-- A block that a node is about to write. -/
structure Block where
  header : String
  /-- The arms with the nodes that start them. -/
  arms : List (Arm × List Nat)
  /-- The nodes that run after the block. -/
  rest : List Nat
deriving DecidableEq, Repr

namespace Job

/-- The successors of a node that no arm claims. -/
def unclaimed (job : Job) (v : Nat) (claimed : List Nat) : List Nat :=
  (job.graph.successors v).filter fun w => !claimed.contains w

/-- The block of a conditional, whose first input is the condition. A node that both branches lead
to belongs to the first. -/
def conditionalBlock? (job : Job) (d : Draft) (v : Nat) (n : Node) : Option (Block × Draft) :=
  n.inputs.head?.map fun p =>
    let condition := job.argument d v n p
    let yes := job.graph.branchTargets v thenLabels
    let no := (job.graph.branchTargets v elseLabels).filter fun w => !yes.contains w
    let block : Block :=
      { header := "if " ++ condition.text ++ ":"
        arms := (.thenArm, yes) :: if no.isEmpty then [] else [(.elseArm, no)]
        rest := job.unclaimed v (yes ++ no) }
    (block, d.report condition.notes)

/-- The name that a loop's variable gets from its node. -/
def itemName (job : Job) (v : Nat) (n : Node) : String :=
  job.nameOf v n ++ "_item"

/-- The variable of a loop: what feeds the first input, or its default as an identifier, or a name
derived from the node. -/
def loopVariable (job : Job) (d : Draft) (v : Nat) (n : Node) (p : Port) : Argument :=
  match job.graph.binding? v p.id with
  | some b => job.boundArgument d n p b
  | none =>
    let named := p.default.bind fun
      | .string s => Naming.identifier? s
      | _ => none
    ⟨named.getD (job.itemName v n), []⟩

/-- The variable and the collection of a loop; a single input is the collection. -/
def loopHead? (job : Job) (d : Draft) (v : Nat) (n : Node) : Option (Argument × Argument) :=
  match n.inputs with
  | [] => none
  | [collection] => some (⟨job.itemName v n, []⟩, job.argument d v n collection)
  | name :: collection :: _ => some (job.loopVariable d v n name, job.argument d v n collection)

/-- The block of a loop. Its outputs hold the variable of the loop. -/
def loopBlock? (job : Job) (d : Draft) (v : Nat) (n : Node) : Option (Block × Draft) :=
  (job.loopHead? d v n).map fun (name, collection) =>
    let body := job.graph.branchTargets v bodyLabels
    let block : Block :=
      { header := "for " ++ name.text ++ " in " ++ collection.text ++ ":"
        arms := [(.loopBody, body)]
        rest := job.unclaimed v body }
    (block, (d.report (name.notes ++ collection.notes)).bindOutputs v (n.outputs.map (·.id))
      name.text)

/-- The block that a node becomes, if it becomes one. -/
def block? (job : Job) (d : Draft) (v : Nat) : Option (Block × Draft) :=
  (job.graph.node? v).bind fun n =>
    match n.kind with
    | .conditional => job.conditionalBlock? d v n
    | .loop => job.loopBlock? d v n
    | _ => none

/-- Walk to some nodes one after the other. -/
def walkAll (walk : Nat → Draft → Draft) (targets : List Nat) (d : Draft) : Draft :=
  targets.foldl (fun d w => walk w d) d

/-- Walk to some nodes, and write `pass` if that writes no line. -/
def walkArm (walk : Nat → Draft → Draft) (targets : List Nat) (d : Draft) : Draft :=
  let e := walkAll walk targets d
  if e.written = d.written then e.write none "pass" else e

/-- Write the arms of a block one after the other, with an `else` between them. -/
def walkArms (walk : Nat → Draft → Draft) (owner : Nat) : List (Arm × List Nat) → Draft → Draft
  | [], d => d
  | (arm, targets) :: rest, d =>
    let d := (walkArm walk targets (d.openArm owner arm)).closeArm owner arm
    walkArms walk owner rest (if rest.isEmpty then d else d.write none "else:")

/-- Write a block, then what runs after it, then the nodes that were held back. -/
def walkBlock (job : Job) (walk : Nat → Draft → Draft) (owner : Nat) (b : Block) (d : Draft) :
    Draft :=
  let (held, d) := job.splitRegions owner (b.arms.map Prod.snd) b.rest d
  let d := walkArms walk owner b.arms (d.write (some owner) b.header)
  walkAll walk held (walkAll walk b.rest (d.letGo held))

/-- Write a node that is no block, then what runs after it, inside the scope that its pattern opens
if it opens one. -/
def walkPlain (job : Job) (walk : Nat → Draft → Draft) (v : Nat) (d : Draft) : Draft :=
  let d := job.writeGuarded d v
  let next := job.graph.successors v
  if job.opensScope v then (walkArm walk next (d.openArm v .scope)).closeArm v .scope
  else walkAll walk next d

/-- Follow the flow from a node, unless it has been entered or waits behind a barrier. `budget` is
at least the number of nodes that have not been entered. -/
def flow (job : Job) : Nat → Nat → Draft → Draft
  | 0, _, d => d
  | budget + 1, v, d =>
    if d.barriers.contains v || d.entered.contains v then d
    else
      let d := job.enter v d
      match job.block? d v with
      | some (b, d) => job.walkBlock (flow job budget) v b d
      | none => job.walkPlain (flow job budget) v d

end Job

end FlowScript
