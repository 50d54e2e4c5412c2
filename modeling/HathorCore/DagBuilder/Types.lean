import HathorCore.Python

/-! # DAG builder: the node record

The data model of `hathor/dag_builder/types.py`, which `builder.py` imports; its shape is fixed
by the spec (§3) and by how `builder.py` uses it. A node is identified by its name and carries a
kind, free attributes, a set of inputs (spent outputs of other nodes), a sparse list of outputs,
and two sets of names: its DAG parents and its pure ordering dependencies.

Python's sets, dicts and lists are those of `HathorCore.Python`. -/

namespace HathorCore.DagBuilder

/-! ### Nodes -/

/-- Modelled from the spec: `DAGNodeType`, the kind of a node. `Unknown` is the unresolved kind
    every node starts with; the spec names block, transaction and token and leaves the set open to
    further kinds, for which `Genesis` stands. -/
inductive DAGNodeType where
  | Unknown
  | Block
  | Transaction
  | Token
  | Genesis
  deriving DecidableEq, Repr

/-- Modelled from the spec: `DAGNodeType(value)`, the kind whose value string is `value`;
    `none` is Python's `ValueError`. -/
def DAGNodeType.ofValue : String → Option DAGNodeType
  | "unknown" => some .Unknown
  | "block" => some .Block
  | "transaction" => some .Transaction
  | "token" => some .Token
  | "genesis" => some .Genesis
  | _ => none

/-- Modelled from the spec: `DAGInput(name, index)`, a spend of output `index` of node `name`. -/
structure DAGInput where
  name : String
  index : Int
  deriving DecidableEq, Repr

/-- Modelled from the spec: `DAGOutput(amount, token, attrs)`, one output descriptor. -/
structure DAGOutput where
  amount : Int
  token : String
  attrs : List (String × String)
  deriving DecidableEq, Repr

/-- Modelled from the spec: `DAGNode`. A fresh node has only its name and kind; the outputs are
    a sparse list where `none` is an unset slot. -/
structure DAGNode where
  name : String
  type : DAGNodeType
  attrs : List (String × String) := []
  inputs : List DAGInput := []
  outputs : List (Option DAGOutput) := []
  parents : List String := []
  deps : List String := []
  deriving DecidableEq, Repr

/-- Modelled from the spec: `DAGNode.get_all_dependencies`, which yields the parents, the name of
    each spent node and the ordering dependencies, in that order. -/
def DAGNode.getAllDependencies (node : DAGNode) : List String :=
  node.parents ++ node.inputs.map DAGInput.name ++ node.deps

@[simp] theorem DAGNode.mem_getAllDependencies (node : DAGNode) (x : String) :
    x ∈ node.getAllDependencies ↔
      x ∈ node.parents ∨ (∃ i ∈ node.inputs, i.name = x) ∨ x ∈ node.deps := by
  simp [getAllDependencies, or_assoc]

end HathorCore.DagBuilder
