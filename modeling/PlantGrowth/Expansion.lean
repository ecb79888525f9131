import PlantGrowth.Turtle.Step
import PlantGrowth.Grammar.Rules

/-!
# Expansion of nodes

In one generation every node whose letter has a rule is replaced by the nodes that
the turtle grows while it reads the chosen text, starting at the entry of the node.
The last of them takes over the exit joint of the replaced node, so that whatever
followed stays attached. Where the turtle does not end on a node of its own, because
the text makes none, ends inside a bracket or ends with a turn, a bridge is added
there: a placeholder that carries the turtle's last frame.

All other nodes are carried over, and their exit joints are brought in line.
-/

namespace PlantGrowth

/-- Counts of what happened in a generation. -/
structure Tally where
  replaced : Nat := 0
  carried : Nat := 0
  bridged : Nat := 0
  saves : UInt32 := 0
  restores : UInt32 := 0
  /-- Closing brackets without an opening one in the same text. -/
  strays : UInt32 := 0
  /-- Brackets still open at the end of their text. -/
  unclosed : Nat := 0
  deriving DecidableEq

namespace Tally

/-- Whether the brackets of every text matched. -/
def balanced (t : Tally) : Bool := t.saves = t.restores && t.strays = 0 && t.unclosed = 0

/-- The counts of two parts together. -/
def add (a b : Tally) : Except Fault Tally := do
  return {
    replaced := a.replaced + b.replaced
    carried := a.carried + b.carried
    bridged := a.bridged + b.bridged
    saves := ← addWord a.saves b.saves
    restores := ← addWord a.restores b.restores
    strays := ← addWord a.strays b.strays
    unclosed := a.unclosed + b.unclosed }

/-- The counts of all parts together. -/
def total (parts : List Tally) : Except Fault Tally := parts.foldlM add {}

/-- Counts of the expansion of one node. -/
def ofStack (s : Stack) (bridged : Bool) : Tally where
  replaced := 1
  bridged := if bridged then 1 else 0
  saves := s.saves
  restores := s.restores
  strays := s.strays
  unclosed := s.unclosed

end Tally

/-- What takes the place of a node in the next generation. -/
structure Replacement where
  nodes : List Node
  tally : Tally

/-- Letter of the bridges. -/
def bridgeLetter : Char := ':'

namespace Expansion

variable {σ : Type}

/-- The nodes with the last one leading to another exit joint. -/
def relinkLast (target : JointId) : List Node → OnSite σ (List Node)
  | [] => return []
  | [n] => return [← OnSite.relink n target]
  | n :: ns => return n :: (← relinkLast target ns)

/-- Whether the turtle, having made these nodes, stands on a frame without a node to
carry it. -/
def needsBridge (made : List Turtle.Made) (stack : Stack) : Bool :=
  let ended := match made.getLast? with
    | some last => last.outer
    | none => false
  !ended || stack.top.rotation != 0

/-- The placeholder that carries a frame. -/
def bridge (grammar : Grammar) (frame : Frame) : Build σ Node := do
  let id ← Build.freshId
  Build.onSite (.attach id bridgeLetter frame.joint frame.rotation frame.depth
    (grammar.contains bridgeLetter) .placeholder)

variable [RandomSource σ]

/-- Expansion of a node by a rule. -/
def expand (grammar : Grammar) (params : GrowthParams) (old : Node)
    (rule : Rule (List Letter)) : Build σ Replacement := do
  -- the turtle starts where the node starts, with the turn and depth of the node
  let start := Stack.ofFrame ⟨old.entry, old.rotation, old.depth⟩
  let text ← Build.onSite (.draw rule.select)
  let (made, stack) ← Turtle.readText params text start
  if stack.unclosed ≠ 0 then
    Build.note (.unclosedBrackets old.letter stack.unclosed)
  let bridged := needsBridge made stack
  let bridges ← if bridged then List.singleton <$> bridge grammar stack.top else pure []
  -- what followed the node hangs on its exit joint
  let nodes ← Build.onSite (relinkLast old.exit (made.map (·.node) ++ bridges))
  return ⟨nodes, .ofStack stack bridged⟩

/-- Rule by which a node is expanded, if it is. -/
def rule? (grammar : Grammar) (n : Node) : Option (Rule (List Letter)) :=
  if n.hasRule then grammar.find? n.letter else none

/-- What takes the place of a node: its expansion, or the node itself. Its entry may
have moved in the same generation, so its exit is brought in line first. -/
def replace (grammar : Grammar) (params : GrowthParams) (old : Node) :
    Build σ Replacement := do
  Build.onSite (.refresh old)
  match rule? grammar old with
  | some rule => expand grammar params old rule
  | none => return ⟨[old], { carried := 1 }⟩

/-- The next generation of a row of nodes. -/
def replaceAll (grammar : Grammar) (params : GrowthParams) (nodes : List Node) :
    Build σ Replacement := do
  let parts ← nodes.mapM (replace grammar params)
  let tally ← Build.check (Tally.total (parts.map (·.tally)))
  return ⟨parts.flatMap (·.nodes), tally⟩

end Expansion

end PlantGrowth
