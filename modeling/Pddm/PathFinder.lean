import Pddm.Outcome
import Pddm.Overlay

/-!
# Path search

Node-disjoint paths through the gossip graph, found by spreading an infection
from the source one round at a time. The order in which a hash container is
iterated is left open: it is a parameter that may be any rearrangement.
-/
namespace Pddm

/-- An iteration order for hash containers, given their elements in the order of
insertion. -/
structure IterationOrder where
  order : ∀ {α : Type}, List α → List α
  perm : ∀ {α : Type} (xs : List α), (order xs).Perm xs

def IterationOrder.insertion : IterationOrder := ⟨id, fun _ => List.Perm.refl _⟩

theorem IterationOrder.mem_order (π : IterationOrder) {α : Type} {xs : List α} {x : α} :
    x ∈ π.order xs ↔ x ∈ xs :=
  (π.perm xs).mem_iff

def minPathLength : ℕ := 3

/-- The chain of parent pointers is kept as the IDs above the node, nearest first. -/
structure InfectedNode where
  id : ℤ
  infectedOnRound : ℤ
  parents : List ℤ
  deriving DecidableEq, Repr

/-- Insertion into a set of infected nodes, whose equality is that of the IDs. -/
def infect (nodes : List InfectedNode) (node : InfectedNode) : List InfectedNode :=
  if nodes.any (fun other => other.id = node.id) then nodes else nodes ++ [node]

/-- One round of the infection: the path to the target, or the newly infected. -/
def spreadInfection (target n startingRound time : ℤ) (excludeNodes : List ℤ) :
    List InfectedNode → List InfectedNode → Except (List ℤ) (List InfectedNode)
  | [], newInfected => .ok newInfected
  | node :: rest, newInfected =>
      let endPt : InfectedNode := ⟨gossipTarget node.id time n, time + 1, node.id :: node.parents⟩
      -- target nodes are also on the used list
      if endPt.id ∈ excludeNodes ∧ endPt.id ≠ target then
        spreadInfection target n startingRound time excludeNodes rest newInfected
      else if endPt.id = target ∧ time - startingRound < minPathLength then
        spreadInfection target n startingRound time excludeNodes rest newInfected
      else if endPt.id = target then
        .error (endPt.parents.reverse ++ [endPt.id])
      else spreadInfection target n startingRound time excludeNodes rest (infect newInfected endPt)

/-- The rounds from `time` on, at most `rounds` of them. -/
def findPathFrom (π : IterationOrder) (target n startingRound : ℤ) (excludeNodes : List ℤ) :
    ℕ → ℤ → List InfectedNode → Except Fault (List ℤ)
  | 0, _, _ => .error .exception
  | rounds + 1, time, infected =>
      match spreadInfection target n startingRound time excludeNodes (π.order infected) [] with
      | .error path => .ok path
      | .ok newInfected =>
          findPathFrom π target n startingRound excludeNodes rounds (time + 1)
            ((π.order newInfected).foldl infect infected)

/-- The entire path, source and target included. -/
def findPath (π : IterationOrder) (source target n startingRound maxRound : ℤ)
    (excludeNodes : List ℤ) : Except Fault (List ℤ) :=
  findPathFrom π target n startingRound excludeNodes (maxRound - startingRound).toNat
    startingRound [⟨source, startingRound, []⟩]

def findAnother (π : IterationOrder) (source target n startingRound maxRound : ℤ)
    (usedNodes : List ℤ) : Except Fault (List ℤ × List ℤ) :=
  if target ≥ n then .error .exception
  else do
    let path ← findPath π source target n startingRound maxRound usedNodes
    .ok (path, usedNodes ++ path.filter fun hop => hop ≠ source ∧ hop ≠ target)

/-- The searches for the remaining targets, each avoiding the nodes used so far. -/
def findPathsFrom (π : IterationOrder) (sourceId numNodes startRound maxRound : ℤ) :
    List ℤ → List ℤ → Except Fault (List (List ℤ))
  | [], _ => .ok []
  | target :: targets, usedNodes => do
      let (path, usedNodes) ←
        findAnother π sourceId target numNodes startRound maxRound usedNodes
      let paths ← findPathsFrom π sourceId numNodes startRound maxRound targets usedNodes
      -- the source is left out of the returned path
      .ok (path.tail :: paths)

def findPaths (π : IterationOrder) (sourceId : ℤ) (targetIds : List ℤ)
    (numNodes startRound : ℤ) : Except Fault (List (List ℤ)) :=
  let roundsLimit := ceilLog2 numNodes * targetIds.length + minPathLength
  findPathsFrom π sourceId numNodes startRound (startRound + roundsLimit) targetIds targetIds

end Pddm
