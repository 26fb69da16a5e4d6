import Pddm.Outcome
import Pddm.Messages
import Pddm.Overlay

/-!
# The Aggregate phase at one meter

The state machine that adds up the values of a meter and of its children in the
tree of its group.
-/
namespace Pddm

namespace AggregationMessage

def addValue (value : FixedPoint) (numContributors : ℤ) (m : AggregationMessage) :
    Except Fault AggregationMessage :=
  match m.body with
  | [] => .error .undefinedBehaviour
  | x :: xs =>
      .ok { m with body := (x + value) :: xs, numContributors := m.numContributors + numContributors }

def addValues (values : List FixedPoint) (numContributors : ℤ) (m : AggregationMessage) :
    Except Fault AggregationMessage :=
  if values.length = m.body.length then
    .ok { m with
      body := List.zipWith (· + ·) values m.body
      numContributors := m.numContributors + numContributors }
  else .error .assertion

end AggregationMessage

structure TreeAggregationState where
  nodeId : ℤ
  numGroups : ℤ
  numMeters : ℤ
  currentQuery : QueryRequest
  initialized : Bool
  childrenReceivedFrom : ℤ
  childrenNeeded : ℤ
  aggregationIntermediate : Option AggregationMessage
  deriving DecidableEq

namespace TreeAggregationState

def make (nodeId numGroups numMeters : ℤ) (query : QueryRequest) : TreeAggregationState :=
  ⟨nodeId, numGroups, numMeters, query, false, 0, 2, none⟩

def awaited (nodeId numGroups numMeters : ℤ) (failedMeterIds : List ℤ) : ℤ :=
  let children := aggregationTreeChildren nodeId numGroups numMeters
  2 - (if children.1 = -1 ∨ children.1 ∈ failedMeterIds then 1 else 0)
    - (if children.2 = -1 ∨ children.2 ∈ failedMeterIds then 1 else 0)

def initializeState (dataArrayLength : ℕ) (failedMeterIds : List ℤ) (s : TreeAggregationState) :
    TreeAggregationState :=
  { s with
    aggregationIntermediate :=
      some (.make s.nodeId s.currentQuery.queryNumber (List.replicate dataArrayLength 0))
    childrenReceivedFrom := 0
    childrenNeeded := awaited s.nodeId s.numGroups s.numMeters failedMeterIds
    initialized := true }

def doneReceivingFromChildren (s : TreeAggregationState) : Bool :=
  s.childrenNeeded ≤ s.childrenReceivedFrom

def isSingleValued (s : TreeAggregationState) : Bool :=
  s.currentQuery.requestType.isSingleValuedQuery

def addData (s : TreeAggregationState) (onEmpty : Fault) (data : List FixedPoint)
    (numContributors : ℤ) (intermediate : AggregationMessage) : Except Fault AggregationMessage :=
  if s.isSingleValued then
    match data with
    | [] => .error onEmpty
    | value :: _ => intermediate.addValue value numContributors
  else intermediate.addValues data numContributors

def handleMessage (message : AggregationMessage) (s : TreeAggregationState) :
    Except Fault TreeAggregationState :=
  match s.aggregationIntermediate with
  | none => .error .undefinedBehaviour
  | some intermediate =>
      -- `at(0)` throws on an empty body
      (s.addData .exception message.body message.numContributors intermediate).map fun added =>
        { s with
          aggregationIntermediate := some added
          childrenReceivedFrom := s.childrenReceivedFrom + 1 }

def addProxyValue (proxyValue : ValueContribution) (s : TreeAggregationState) :
    Except Fault TreeAggregationState :=
  match s.aggregationIntermediate with
  | none => .error .undefinedBehaviour
  | some intermediate =>
      (s.addData .undefinedBehaviour proxyValue.value.value 1 intermediate).map fun added =>
        { s with aggregationIntermediate := some added }

/-- The loop itself, up to the point where it is cut short. -/
def addProxyValues : List ValueContribution → TreeAggregationState →
    Outcome Fault TreeAggregationState
  | [], s => .done s
  | value :: values, s =>
      match s.addProxyValue value with
      | .error e => .halted e s
      | .ok s => addProxyValues values s

end TreeAggregationState
end Pddm
