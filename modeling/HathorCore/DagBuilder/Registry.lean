import HathorCore.DagBuilder.Types

/-! # DAG builder: the node registry

`DAGBuilder._nodes` is a dict from names to nodes: its keys are distinct, which the structure
carries as a field, and its items keep insertion order, which the sort reads. Nodes are mutable
Python objects reached by name, so a mutation `node.f = ...` through a reference is
`modifyNode name` on the registry.

Recorder calls run in `Recorder`, a state-and-exception monad over the registry. An exception
keeps the registry as it was when raised, as Python does: nothing is rolled back. -/

namespace HathorCore.DagBuilder

/-- `DAGBuilder._nodes`, an insertion-ordered dict whose keys are distinct. -/
structure DAGBuilder where
  nodes : List (String × DAGNode)
  nodup : (nodes.map Prod.fst).Nodup

/-- `if node.type is DAGNodeType.Unknown: node.type = default_type`. -/
def DAGNode.resolveType (t : DAGNodeType) (node : DAGNode) : DAGNode :=
  if node.type = .Unknown then { node with type := t } else node

/-- Resolving a kind changes no other field of the node. -/
theorem DAGNode.resolveType_field {β : Type} (p : DAGNode → β)
    (hp : ∀ (n : DAGNode) (t : DAGNodeType), p { n with type := t } = p n) (t : DAGNodeType)
    (node : DAGNode) : p (node.resolveType t) = p node := by
  unfold DAGNode.resolveType; split
  exacts [hp _ _, rfl]

namespace DAGBuilder

/-- A fresh builder: `self._nodes = {}`. -/
def empty : DAGBuilder := ⟨[], List.nodup_nil⟩

/-- `self._nodes.keys()`, in insertion order. -/
def keys (b : DAGBuilder) : List String := b.nodes.map Prod.fst

/-- `self._nodes[name]`; `none` is a `KeyError`. -/
def get? (b : DAGBuilder) (name : String) : Option DAGNode := dictGet b.nodes name

/-- `self._nodes[name] = node`. -/
def insert (b : DAGBuilder) (name : String) (node : DAGNode) : DAGBuilder :=
  ⟨dictSet b.nodes name node, by
    rw [keys_dictSet]; split
    · exact b.nodup
    · exact b.nodup.append (List.nodup_singleton _) (List.disjoint_singleton.2 ‹_›)⟩

/-- A mutation of the node object registered under `name`. -/
def modifyNode (b : DAGBuilder) (name : String) (f : DAGNode → DAGNode) : DAGBuilder :=
  match b.get? name with
  | some node => b.insert name (f node)
  | none => b

/-- The node under `name`, or the fresh node `_get_or_create_node(name)` would create. -/
def getD (b : DAGBuilder) (name : String) : DAGNode :=
  (b.get? name).getD { name := name, type := .Unknown }

/-- The registry after `self._get_or_create_node(name)` with the default kind. -/
def ensure (b : DAGBuilder) (name : String) : DAGBuilder :=
  match b.get? name with
  | some _ => b
  | none => b.insert name { name := name, type := .Unknown }

/-- The registry after a `_get_or_create_node(name, default_type=t)` that returns normally. -/
def resolve (b : DAGBuilder) (name : String) (t : DAGNodeType) : DAGBuilder :=
  (b.ensure name).modifyNode name (DAGNode.resolveType t)

@[ext] theorem ext {b b' : DAGBuilder} (h : b.nodes = b'.nodes) : b = b' := by
  cases b; cases b'; cases h; rfl

instance : DecidableEq DAGBuilder := fun b b' =>
  decidable_of_iff (b.nodes = b'.nodes) ⟨ext, fun h => h ▸ rfl⟩

variable {b : DAGBuilder} {name k : String} {node v : DAGNode}

@[simp] theorem get?_empty : empty.get? name = none := rfl

@[simp] theorem keys_empty : empty.keys = [] := rfl

theorem keys_nodup (b : DAGBuilder) : b.keys.Nodup := b.nodup

@[simp] theorem get?_insert : (b.insert k v).get? name = if name = k then some v else b.get? name :=
  dictGet_dictSet _ _ _ _

theorem keys_insert : (b.insert k v).keys = if k ∈ b.keys then b.keys else b.keys ++ [k] :=
  keys_dictSet _ _ _

theorem get?_eq_none : b.get? name = none ↔ name ∉ b.keys := dictGet_eq_none

theorem mem_keys : name ∈ b.keys ↔ ∃ node, b.get? name = some node := by
  rw [← not_iff_not, ← get?_eq_none]; cases b.get? name <;> simp

theorem mem_keys_of_get? (h : b.get? name = some node) : name ∈ b.keys := mem_keys.2 ⟨_, h⟩

/-- The items of the dict are exactly its lookups; this is where distinct keys are used. -/
theorem mem_nodes : (name, node) ∈ b.nodes ↔ b.get? name = some node := by
  obtain ⟨nodes, hnd⟩ := b
  simp only [get?]
  induction nodes with
  | nil => simp [dictGet]
  | cons e nodes ih =>
    obtain ⟨a, x⟩ := e
    simp only [List.map_cons, List.nodup_cons] at hnd
    by_cases h : a = name
    · subst h
      have : ∀ y, (a, y) ∉ nodes := fun y hy => hnd.1 (List.mem_map_of_mem Prod.fst hy)
      simp [dictGet, this, eq_comm]
    · simp [dictGet, h, Ne.symm h, ih hnd.2]

@[simp] theorem mem_keys_insert : name ∈ (b.insert k v).keys ↔ name ∈ b.keys ∨ name = k := by
  rw [keys_insert]; split <;> simp_all [or_iff_left_of_imp]

theorem insert_self (h : b.get? k = some v) : b.insert k v = b := by
  ext1
  show dictSet b.nodes k v = b.nodes
  rw [dictSet, if_pos (show k ∈ b.nodes.map Prod.fst from mem_keys_of_get? h)]
  conv_rhs => rw [← List.map_id b.nodes]
  refine List.map_congr_left fun e he => ?_
  split
  · obtain ⟨a, x⟩ := e
    simp only at *; subst a
    rw [mem_nodes.1 he] at h; cases h; rfl
  · rfl

@[simp] theorem get?_modifyNode (f : DAGNode → DAGNode) :
    (b.modifyNode k f).get? name = if name = k then (b.get? k).map f else b.get? name := by
  unfold modifyNode; split <;> by_cases h : name = k <;> simp_all

theorem keys_modifyNode (f : DAGNode → DAGNode) : (b.modifyNode k f).keys = b.keys := by
  unfold modifyNode; split
  · rw [keys_insert, if_pos (mem_keys_of_get? ‹_›)]
  · rfl

theorem modifyNode_of_get? (f : DAGNode → DAGNode) (h : b.get? k = some node) :
    b.modifyNode k f = b.insert k (f node) := by
  simp [modifyNode, h]

theorem modifyNode_id_of (f : DAGNode → DAGNode) (h : b.get? k = some node) (hf : f node = node) :
    b.modifyNode k f = b := by
  rw [modifyNode_of_get? f h, hf, insert_self h]

theorem getD_of_get? (h : b.get? name = some node) : b.getD name = node := by
  simp [getD, h]

@[simp] theorem get?_ensure :
    (b.ensure k).get? name = if name = k then some (b.getD k) else b.get? name := by
  unfold ensure getD; split <;> by_cases h : name = k <;> simp_all

@[simp] theorem mem_keys_ensure : name ∈ (b.ensure k).keys ↔ name ∈ b.keys ∨ name = k := by
  unfold ensure; split
  · rename_i h; have := mem_keys_of_get? h; constructor <;> aesop
  · simp

@[simp] theorem getD_ensure : (b.ensure k).getD name = b.getD name := by
  simp only [getD, get?_ensure]; split <;> simp_all [getD]

theorem keys_ensure : (b.ensure k).keys = if k ∈ b.keys then b.keys else b.keys ++ [k] := by
  unfold ensure; split
  · rename_i h; simp [mem_keys_of_get? h]
  · rename_i h; rw [keys_insert, if_neg (get?_eq_none.1 h)]

/-- A registry is determined by its keys in order and its lookups. -/
theorem ext_get? {b b' : DAGBuilder} (hk : b.keys = b'.keys) (hg : ∀ k, b.get? k = b'.get? k) :
    b = b' := by
  ext1
  have hlen : b.nodes.length = b'.nodes.length := by
    simpa [keys] using congrArg List.length hk
  refine List.ext_get hlen fun i h₁ h₂ => ?_
  have hfst : (b.nodes.get ⟨i, h₁⟩).1 = (b'.nodes.get ⟨i, h₂⟩).1 := by
    have := congrArg (fun l => l.get? i) hk
    simpa [keys, List.getElem?_eq_getElem h₁, List.getElem?_eq_getElem h₂] using this
  have h := mem_nodes.1 (List.get_mem b.nodes i h₁)
  have h' := mem_nodes.1 (List.get_mem b'.nodes i h₂)
  rw [hg, hfst, h'] at h
  exact Prod.ext hfst (Option.some.inj h).symm

theorem ensure_of_mem (h : k ∈ b.keys) : b.ensure k = b := by
  obtain ⟨_, h⟩ := mem_keys.1 h; simp [ensure, h]

theorem insert_insert : (b.insert k v).insert k node = b.insert k node :=
  ext_get? (by rw [keys_insert, if_pos (by simp), keys_insert, keys_insert])
    (by intro; simp; split <;> rfl)

@[simp] theorem get?_resolve (t : DAGNodeType) :
    (b.resolve k t).get? name =
      if name = k then some ((b.getD k).resolveType t) else b.get? name := by
  simp only [resolve, get?_modifyNode, get?_ensure]; split <;> simp_all

theorem keys_resolve (t : DAGNodeType) : (b.resolve k t).keys = (b.ensure k).keys :=
  keys_modifyNode _

@[simp] theorem mem_keys_resolve (t : DAGNodeType) :
    name ∈ (b.resolve k t).keys ↔ name ∈ b.keys ∨ name = k := by
  rw [keys_resolve, mem_keys_ensure]

theorem getD_resolve (t : DAGNodeType) :
    (b.resolve k t).getD name = if name = k then (b.getD k).resolveType t else b.getD name := by
  simp only [getD, get?_resolve]; split <;> simp_all [getD]

theorem getD_modifyNode_of_mem (f : DAGNode → DAGNode) (h : k ∈ b.keys) :
    (b.modifyNode k f).getD name = if name = k then f (b.getD k) else b.getD name := by
  obtain ⟨v, hv⟩ := mem_keys.1 h
  simp only [getD, get?_modifyNode, hv]; split <;> simp_all

theorem getD_modifyNode_ne (f : DAGNode → DAGNode) (h : name ≠ k) :
    (b.modifyNode k f).getD name = b.getD name := by
  simp [getD, h]

/-- A node field that the mutation keeps is the same after `modifyNode`. -/
theorem getD_modifyNode_field {β : Type} (p : DAGNode → β) (f : DAGNode → DAGNode)
    (hf : ∀ n, p (f n) = p n) : p ((b.modifyNode k f).getD name) = p (b.getD name) := by
  unfold modifyNode; split
  · by_cases h : name = k
    · subst h; simp_all [getD]
    · simp [getD, h]
  · rfl

theorem outputs_modifyNode (f : DAGNode → DAGNode) (hf : ∀ n, (f n).outputs = n.outputs) :
    ((b.modifyNode k f).getD name).outputs = (b.getD name).outputs :=
  getD_modifyNode_field DAGNode.outputs f hf

/-- `resolve` changes no field of a node but its kind. -/
theorem getD_resolve_field {β : Type} (p : DAGNode → β)
    (hp : ∀ (n : DAGNode) (t : DAGNodeType), p { n with type := t } = p n) (t : DAGNodeType) :
    p ((b.resolve k t).getD name) = p (b.getD name) := by
  rw [getD_resolve]; split
  · subst name; exact DAGNode.resolveType_field p hp t _
  · rfl

/-- Resolving a node whose kind is already concrete changes nothing. -/
theorem resolve_of_type (hk : k ∈ b.keys) (t : DAGNodeType) (ht : (b.getD k).type ≠ .Unknown) :
    b.resolve k t = b := by
  obtain ⟨v, hv⟩ := mem_keys.1 hk
  rw [getD_of_get? hv] at ht
  rw [resolve, ensure_of_mem hk, modifyNode_id_of _ hv (by simp [DAGNode.resolveType, ht])]

theorem modifyNode_modifyNode (f g : DAGNode → DAGNode) :
    (b.modifyNode k f).modifyNode k g = b.modifyNode k (g ∘ f) :=
  ext_get? (by simp only [keys_modifyNode]) fun n => by
    simp only [get?_modifyNode]; split <;> simp [Option.map_map]

theorem modifyNode_idem {f : DAGNode → DAGNode} (hf : ∀ n, f (f n) = f n) :
    (b.modifyNode k f).modifyNode k f = b.modifyNode k f := by
  rw [modifyNode_modifyNode]; exact congrArg _ (funext hf)

theorem modifyNode_id_of_mem {f : DAGNode → DAGNode} (hk : k ∈ b.keys)
    (hf : f (b.getD k) = b.getD k) : b.modifyNode k f = b := by
  obtain ⟨v, hv⟩ := mem_keys.1 hk
  rw [getD_of_get? hv] at hf
  exact modifyNode_id_of f hv hf

theorem resolveType_of_resolved {t : DAGNodeType} {n : DAGNode} (h : t = .Unknown ∨ n.type = t) :
    n.resolveType t = n := by
  unfold DAGNode.resolveType; split
  · cases n; rcases h with rfl | rfl <;> simp_all
  · rfl

/-- Resolving a node to the kind it has, or to `Unknown`, changes nothing. -/
theorem resolve_of_resolved (hk : k ∈ b.keys) {t : DAGNodeType}
    (h : t = .Unknown ∨ (b.getD k).type = t) : b.resolve k t = b := by
  rw [resolve, ensure_of_mem hk]; exact modifyNode_id_of_mem hk (resolveType_of_resolved h)

/-- A mutation that commutes with kind resolution on nodes commutes with it on the registry. -/
theorem resolve_modifyNode (f : DAGNode → DAGNode) {t : DAGNodeType}
    (hf : ∀ n, (f n).resolveType t = f (n.resolveType t)) (hk : k ∈ b.keys) :
    (b.modifyNode k f).resolve name t = (b.resolve name t).modifyNode k f := by
  obtain ⟨v, hv⟩ := mem_keys.1 hk
  refine ext_get? (by simp only [keys_modifyNode, keys_resolve, keys_ensure]) fun n => ?_
  have hd : b.getD k = v := getD_of_get? hv
  by_cases h1 : n = name <;> by_cases h2 : n = k <;> by_cases h3 : k = name <;>
    simp_all [getD_modifyNode_of_mem]

end DAGBuilder

/-- The exceptions a recorder call can raise. -/
inductive BuilderError where
  /-- `assert node.type is default_type, f'{node.type} != {default_type}'` in
      `_get_or_create_node`: the kind mismatch of the spec. -/
  | kindMismatch (current requested : DAGNodeType)
  /-- `DAGNodeType(value)` on a string that names no kind. -/
  | valueError (value : String)
  /-- `node.outputs[index] = ...` with an index out of range. -/
  | indexError (index : Int)
  deriving DecidableEq, Repr

/-- A recorder call: it reads and mutates the registry and may raise, keeping the registry. -/
abbrev Recorder := EStateM BuilderError DAGBuilder

/-- The registry a call leaves, whether it returned or raised. -/
def Recorder.after {α : Type} : EStateM.Result BuilderError DAGBuilder α → DAGBuilder
  | .ok _ b => b
  | .error _ b => b

theorem Recorder.bind_ok {α β : Type} {x : Recorder α} {f : α → Recorder β} {b b' : DAGBuilder}
    {a : α} (h : x b = .ok a b') : (x >>= f) b = f a b' := by
  show EStateM.bind x f b = _
  simp only [EStateM.bind, h]

theorem Recorder.bind_error {α β : Type} {x : Recorder α} {f : α → Recorder β}
    {b b' : DAGBuilder} {e : BuilderError} (h : x b = .error e b') :
    (x >>= f) b = .error e b' := by
  show EStateM.bind x f b = _
  simp only [EStateM.bind, h]

theorem Recorder.pure_apply {α : Type} (a : α) (b : DAGBuilder) :
    (pure a : Recorder α) b = .ok a b := rfl

theorem Recorder.throw_apply {α : Type} (e : BuilderError) (b : DAGBuilder) :
    (throw e : Recorder α) b = .error e b := rfl

/-- `DAGBuilder._get_or_create_node`: return the node, creating it with `default_type` if needed;
    an `Unknown` node is upgraded to `default_type`, and a concrete kind must equal a concrete
    `default_type`. -/
def getOrCreateNode (name : String) (default_type : DAGNodeType := .Unknown) :
    Recorder DAGNode := fun b =>
  match b.get? name with
  | none => .ok { name := name, type := default_type }
      (b.insert name { name := name, type := default_type })
  | some node =>
    if node.type = .Unknown then
      .ok { node with type := default_type } (b.insert name { node with type := default_type })
    else if default_type ≠ .Unknown ∧ node.type ≠ default_type then
      .error (.kindMismatch node.type default_type) b
    else .ok node b

/-- A mutation through a node reference, `node.f = ...`. -/
def updateNode (name : String) (f : DAGNode → DAGNode) : Recorder Unit := fun b =>
  .ok () (b.modifyNode name f)

/-- `_get_or_create_node` raises exactly when both the node's kind and `default_type` are
    concrete and differ; otherwise it returns the resolved node. -/
theorem getOrCreateNode_eq (name : String) (t : DAGNodeType) (b : DAGBuilder) :
    getOrCreateNode name t b =
      if t ≠ .Unknown ∧ (b.getD name).type ≠ .Unknown ∧ (b.getD name).type ≠ t then
        .error (.kindMismatch (b.getD name).type t) b
      else .ok ((b.getD name).resolveType t) (b.resolve name t) := by
  unfold getOrCreateNode DAGBuilder.resolve DAGBuilder.ensure DAGBuilder.getD
  cases h : b.get? name with
  | none =>
    simp [DAGBuilder.modifyNode, DAGNode.resolveType, DAGBuilder.insert_insert]
  | some node =>
    by_cases hu : node.type = .Unknown
    · simp [hu, h, DAGBuilder.modifyNode, DAGNode.resolveType]
    · by_cases hc : t ≠ .Unknown ∧ node.type ≠ t
      · simp [hu, hc]
      · have : b.modifyNode name (DAGNode.resolveType t) = b :=
          DAGBuilder.modifyNode_id_of _ h (by simp [DAGNode.resolveType, hu])
        simp only [Option.getD_some, hu, hc, false_and, if_false, and_false, this, h, not_false_eq_true, ne_eq,
          DAGNode.resolveType, if_neg hu]
        split <;> simp_all

/-- `_get_or_create_node` either raises, leaving the registry as it was, or returns normally and
    leaves the resolved registry. -/
theorem getOrCreateNode_cases (name : String) (t : DAGNodeType) (b : DAGBuilder) :
    (∃ e, getOrCreateNode name t b = .error e b) ∨
      getOrCreateNode name t b = .ok ((b.getD name).resolveType t) (b.resolve name t) := by
  rw [getOrCreateNode_eq]; split
  · exact .inl ⟨_, rfl⟩
  · exact .inr rfl

/-- A normal return of `_get_or_create_node(name, default_type=t)` leaves the node resolved to
    `t`. -/
theorem getOrCreateNode_ok {name : String} {t : DAGNodeType} {b b' : DAGBuilder} {n : DAGNode}
    (h : getOrCreateNode name t b = .ok n b') : b' = b.resolve name t := by
  rcases getOrCreateNode_cases name t b with ⟨e, he⟩ | hok
  · rw [he] at h; cases h
  · rw [hok] at h; cases h; rfl

/-- After a normal return of `_get_or_create_node(name, default_type=t)` with a concrete `t`,
    the node has kind `t`. -/
theorem getOrCreateNode_ok_type {name : String} {t : DAGNodeType} {b b' : DAGBuilder} {n : DAGNode}
    (h : getOrCreateNode name t b = .ok n b') (ht : t ≠ .Unknown) : (b'.getD name).type = t := by
  rw [getOrCreateNode_eq] at h
  split at h
  · cases h
  · rename_i hc
    cases h
    simp only [DAGBuilder.getD_resolve, if_true, DAGNode.resolveType]
    split
    · rfl
    · exact (Classical.not_not.1 fun h' => hc ⟨ht, ‹_›, h'⟩)

/-- `self._get_or_create_node(name)` with the default kind: it never raises, returns the node
    registered under `name` afterwards, and creates an `Unknown` node when the name is new. -/
theorem getOrCreateNode_unknown (name : String) (b : DAGBuilder) :
    getOrCreateNode name .Unknown b = .ok (b.getD name) (b.ensure name) := by
  unfold getOrCreateNode DAGBuilder.ensure DAGBuilder.getD
  split
  · simp_all
  · rename_i node h
    by_cases ht : node.type = .Unknown
    · have : { node with type := DAGNodeType.Unknown } = node := by cases node; cases ht; rfl
      simp [ht, this, DAGBuilder.insert_self h, h]
    · simp [ht, h]

/-- `_get_or_create_node` on a registered node whose kind already answers the request returns it
    and changes nothing. -/
theorem getOrCreateNode_of_resolved {name : String} {t : DAGNodeType} {b : DAGBuilder}
    (hk : name ∈ b.keys) (h : t = .Unknown ∨ (b.getD name).type = t) :
    getOrCreateNode name t b = .ok (b.getD name) b := by
  rw [getOrCreateNode_eq, if_neg (by rintro ⟨h1, -, h3⟩; rcases h with h | h <;> simp_all),
    DAGBuilder.resolveType_of_resolved h, DAGBuilder.resolve_of_resolved hk h]

theorem Recorder.bind_apply {α β : Type} (x : Recorder α) (f : α → Recorder β) (b : DAGBuilder) :
    (x >>= f) b = EStateM.bind x f b := rfl

theorem updateNode_apply (name : String) (f : DAGNode → DAGNode) (b : DAGBuilder) :
    updateNode name f b = .ok () (b.modifyNode name f) := rfl

end HathorCore.DagBuilder
