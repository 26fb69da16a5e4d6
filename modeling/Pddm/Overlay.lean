import Mathlib

/-!
# The overlay

Gossip targets and predecessors, aggregation groups and the binary tree inside
each group. Node IDs and rounds are C++ `int`s; the modular power computes in
32-bit words as the source does.
-/
namespace Pddm

/-- Why a call did not return: an uncaught exception, a failed assertion, an access
outside the bounds of an object, or recursion past the fuel of the model. -/
inductive Fault
  | exception
  | assertion
  | undefinedBehaviour
  | outOfFuel
  deriving DecidableEq, Repr

def uint32 (x : ℤ) : ℕ := (x % 2 ^ 32).toNat

/-- `⌈log2 n⌉`, as the rounded-up double logarithm of an `int` gives it. -/
def ceilLog2 (n : ℤ) : ℕ := if n ≤ 1 then 0 else Nat.log2 (n.toNat - 1) + 1

/-- One pass of the loop for each bit of a 32-bit exponent. -/
def modPowLoop (mod : ℕ) : ℕ → ℕ → ℕ → ℕ → ℕ
  | 0, result, _, _ => result
  | bits + 1, result, num, pow =>
      if 0 < pow then
        modPowLoop mod bits (if pow % 2 = 1 then result * num % mod else result)
          -- the square is a 32-bit product, the accumulator a 64-bit one
          (num * num % 2 ^ 32 % mod) (pow / 2)
      else result

def modPow (num pow mod : ℕ) : ℕ := modPowLoop mod 32 1 num pow

def gossipTarget (sourceId round groupSize : ℤ) : ℤ :=
  (uint32 sourceId + modPow 2 (uint32 round) (uint32 groupSize)) % 2 ^ 32 % uint32 groupSize

/-- Modular subtraction that wraps around a negative difference. -/
def modSubtract (x y m : ℤ) : ℤ := (x - y).tmod m + if x ≥ y then 0 else m

def gossipPredecessor (targetId round groupSize : ℤ) : ℤ :=
  modSubtract targetId (modPow 2 (uint32 round) (uint32 groupSize)) groupSize

def standardGroupSize (numGroups numMeters : ℤ) : ℤ := numMeters.tdiv numGroups

/-- Rounds down; the extra meter gets included in the last group. -/
def secondLastGroupSize (numGroups numMeters : ℤ) : ℤ :=
  let groupSize := standardGroupSize numGroups numMeters
  let leftoverSize := numMeters - (numGroups - 1) * groupSize
  (groupSize + leftoverSize).tdiv 2

/-- `choice` is the outcome of a uniform draw between the minimum and `max - 1`. -/
def randomIntExclude (choice max exclude : ℤ) : ℤ := if choice = exclude then max else choice

/-- One proxy from the IDs `groupBegin` to `groupEnd`, never the node itself. -/
def pickProxy (choice nodeId groupBegin groupEnd : ℤ) : ℤ :=
  if groupBegin ≤ nodeId ∧ nodeId ≤ groupEnd then randomIntExclude choice groupEnd nodeId
  else choice

/-- The IDs among which the `g`-th proxy is drawn: full-size groups, then the
second-to-last group, then the last. -/
def proxyRange (numGroups numMeters g : ℤ) : ℤ × ℤ :=
  let groupSize := standardGroupSize numGroups numMeters
  let secondLastSize := secondLastGroupSize numGroups numMeters
  if g < numGroups - 2 then (g * groupSize, g * groupSize + (groupSize - 1))
  else if g = numGroups - 2 then
    ((numGroups - 2) * groupSize, (numGroups - 2) * groupSize + (secondLastSize - 1))
  else ((numGroups - 2) * groupSize + (secondLastSize - 1) + 1, numMeters - 1)

/-- Picks proxies; `draws g` is the outcome of the `g`-th uniform draw. -/
def pickProxies (draws : ℕ → ℤ) (nodeId numGroups numMeters : ℤ) : Except Fault (List ℤ) :=
  if standardGroupSize numGroups numMeters < 2 then .error .exception
  -- with a single group the entry of the second-to-last group is out of bounds
  else if numGroups < 2 then .error .undefinedBehaviour
  else .ok ((List.range numGroups.toNat).map fun g : ℕ =>
    let range := proxyRange numGroups numMeters g
    pickProxy (draws g) nodeId range.1 range.2)

/-- The outcomes that the uniform distributions of `pickProxies` can produce. -/
def ValidDraws (draws : ℕ → ℤ) (nodeId numGroups numMeters : ℤ) : Prop :=
  ∀ g : ℕ, (g : ℤ) < numGroups →
    let range := proxyRange numGroups numMeters g
    range.1 ≤ draws g ∧
      draws g ≤ if range.1 ≤ nodeId ∧ nodeId ≤ range.2 then range.2 - 1 else range.2

def aggregationGroupFor (nodeId numGroups numMeters : ℤ) : ℤ :=
  let groupSize := standardGroupSize numGroups numMeters
  let secondLastSize := secondLastGroupSize numGroups numMeters
  let groupNum := nodeId.tdiv groupSize
  -- the last two groups might not be the standard size
  if groupNum ≥ numGroups - 2 then
    if nodeId ≥ groupSize * (numGroups - 2) ∧
        nodeId < groupSize * (numGroups - 2) + secondLastSize then numGroups - 2
    else numGroups - 1
  else groupNum

/-- The parent in the binary tree of the node's group, or -1 at the root. -/
def aggregationTreeParent (nodeId numGroups numMeters : ℤ) : ℤ :=
  let groupSize := standardGroupSize numGroups numMeters
  let firstId :=
    if aggregationGroupFor nodeId numGroups numMeters = numGroups - 1 then
      (numGroups - 2) * groupSize + secondLastGroupSize numGroups numMeters
    else aggregationGroupFor nodeId numGroups numMeters * groupSize
  if nodeId = firstId then -1
  else (nodeId - firstId - 1).tdiv 2 + firstId

/-- The children in the binary tree of the node's group, -1 where there is none. -/
def aggregationTreeChildren (nodeId numGroups numMeters : ℤ) : ℤ × ℤ :=
  let standardSize := standardGroupSize numGroups numMeters
  let secondLastSize := secondLastGroupSize numGroups numMeters
  let group := aggregationGroupFor nodeId numGroups numMeters
  let (firstId, groupSize) :=
    if group = numGroups - 1 then
      let firstId := (numGroups - 2) * standardSize + secondLastSize
      (firstId, numMeters - firstId)
    else if group = numGroups - 2 then (group * standardSize, secondLastSize)
    else (group * standardSize, standardSize)
  let rightChildRelative := (nodeId - firstId + 1) * 2
  let leftChildRelative := rightChildRelative - 1
  if leftChildRelative ≥ groupSize then (-1, -1)
  else if rightChildRelative ≥ groupSize then (leftChildRelative + firstId, -1)
  else (leftChildRelative + firstId, rightChildRelative + firstId)

end Pddm
