import HathorCore.DagBuilder.Outputs

/-! # DAG builder: the registry is closed under dependencies

Every recorder call creates each node it links to before it records the link, and `set_output`
adds every non-native token it writes to the node's deps. So on every registry a run of
`parse_tokens` returns normally from, each key names its node, each parent, spent node and
ordering dependency is registered, and the spec's full dependency set (parents, spent nodes,
deps and non-native output tokens) is the set `get_all_dependencies` yields.

The invariant is per node (`NodeWF`), and each primitive mutation is shown to keep it once. -/

namespace HathorCore.DagBuilder

open DAGBuilder

/-! ### The spec's dependency set -/

/-- The tokens of a node's output descriptors other than the native `HTR` and the placeholder
    `''` that `add_spending_edge` writes. -/
def DAGNode.outputTokens (v : DAGNode) : List String :=
  v.outputs.filterMap fun o =>
    o.bind fun d => if d.token ≠ "HTR" ∧ d.token ≠ "" then some d.token else none

/-- The full dependency set of a node in the spec's words (§3): parents, the source of each input,
    deps, and the token of each output in a token other than the native one. -/
def DAGNode.fullDependencies (v : DAGNode) : List String :=
  v.parents ++ v.inputs.map DAGInput.name ++ v.deps ++ v.outputTokens

theorem DAGNode.mem_outputTokens {v : DAGNode} {x : String} :
    x ∈ v.outputTokens ↔ ∃ d, some d ∈ v.outputs ∧ d.token = x ∧ x ≠ "HTR" ∧ x ≠ "" := by
  simp only [outputTokens, List.mem_filterMap, Option.bind_eq_some]
  constructor
  · rintro ⟨o, ho, d, rfl, hd⟩
    split at hd
    · cases hd; exact ⟨d, ho, rfl, ‹_ ∧ _›⟩
    · cases hd
  · rintro ⟨d, hd, rfl, h⟩
    exact ⟨_, hd, d, rfl, if_pos h⟩

theorem DAGNode.outputTokens_subset {v w : DAGNode} {d : DAGOutput}
    (h : ∀ o ∈ w.outputs, o ∈ v.outputs ∨ o = none ∨ o = some d) {x : String}
    (hx : x ∈ w.outputTokens) : x ∈ v.outputTokens ∨ x = d.token := by
  obtain ⟨d', hd', rfl, hx⟩ := mem_outputTokens.1 hx
  rcases h _ hd' with h | h | h
  · exact .inl (mem_outputTokens.2 ⟨d', h, rfl, hx⟩)
  · cases h
  · cases h; exact .inr rfl

/-! ### The per-node invariant -/

/-- What the recorder keeps true of the node registered under `k`, given the registry's keys. -/
structure NodeWF (keys : List String) (k : String) (v : DAGNode) : Prop where
  name_eq : v.name = k
  registered : ∀ x ∈ v.getAllDependencies, x ∈ keys
  tokens_in_deps : ∀ x ∈ v.outputTokens, x ∈ v.deps

/-- Every registered node satisfies `NodeWF`. -/
def WellFormed (b : DAGBuilder) : Prop := ∀ k v, b.get? k = some v → NodeWF b.keys k v

section NodeWF

variable {keys : List String} {k x : String} {v : DAGNode}

theorem NodeWF.mono (h : NodeWF keys k v) {keys' : List String} (hk : ∀ x ∈ keys, x ∈ keys') :
    NodeWF keys' k v :=
  ⟨h.name_eq, fun x hx => hk x (h.registered x hx), h.tokens_in_deps⟩

theorem NodeWF.fresh (t : DAGNodeType) : NodeWF keys k { name := k, type := t } :=
  ⟨rfl, by simp [DAGNode.getAllDependencies], by simp [DAGNode.outputTokens]⟩

theorem NodeWF.resolveType (h : NodeWF keys k v) (t : DAGNodeType) :
    NodeWF keys k (v.resolveType t) := by
  unfold DAGNode.resolveType; split
  · exact ⟨h.name_eq, h.registered, h.tokens_in_deps⟩
  · exact h

theorem NodeWF.setType (h : NodeWF keys k v) (t : DAGNodeType) :
    NodeWF keys k { v with type := t } :=
  ⟨h.name_eq, h.registered, h.tokens_in_deps⟩

theorem NodeWF.setAttrs (h : NodeWF keys k v) (attrs : List (String × String)) :
    NodeWF keys k { v with attrs := attrs } :=
  ⟨h.name_eq, h.registered, h.tokens_in_deps⟩

theorem NodeWF.addParent (h : NodeWF keys k v) (hx : x ∈ keys) :
    NodeWF keys k { v with parents := setAdd v.parents x } :=
  ⟨h.name_eq, fun y hy => by
    simp only [DAGNode.mem_getAllDependencies, mem_setAdd] at hy
    rcases hy with (hy | rfl) | hy
    · exact h.registered y (by simp [hy])
    · exact hx
    · exact h.registered y (by simp [hy]), h.tokens_in_deps⟩

theorem NodeWF.addDep (h : NodeWF keys k v) (hx : x ∈ keys) :
    NodeWF keys k { v with deps := setAdd v.deps x } :=
  ⟨h.name_eq, fun y hy => by
    simp only [DAGNode.mem_getAllDependencies, mem_setAdd] at hy
    rcases hy with hy | hy | hy | rfl
    · exact h.registered y (by simp [hy])
    · exact h.registered y (by simp [hy])
    · exact h.registered y (by simp [hy])
    · exact hx,
   fun y hy => (mem_setAdd _ _ _).2 (.inl (h.tokens_in_deps y hy))⟩

theorem NodeWF.addInput (h : NodeWF keys k v) {i : DAGInput} (hx : i.name ∈ keys) :
    NodeWF keys k { v with inputs := setAdd v.inputs i } :=
  ⟨h.name_eq, fun y hy => by
    simp only [DAGNode.mem_getAllDependencies, mem_setAdd] at hy
    rcases hy with hy | ⟨j, hj | rfl, rfl⟩ | hy
    · exact h.registered y (by simp [hy])
    · exact h.registered _ (by simp; exact .inr (.inl ⟨j, hj, rfl⟩))
    · exact hx
    · exact h.registered y (by simp [hy]), h.tokens_in_deps⟩

/-- Writing outputs whose descriptors are old ones, padding, or one descriptor `d` keeps the
    invariant once `d`'s token is a dep, or is native or the placeholder. -/
theorem NodeWF.setOutputs (h : NodeWF keys k v) {outputs : List (Option DAGOutput)}
    (d : DAGOutput) (ho : ∀ o ∈ outputs, o ∈ v.outputs ∨ o = none ∨ o = some d)
    (hd : d.token ∈ v.deps ∨ d.token = "HTR" ∨ d.token = "") :
    NodeWF keys k { v with outputs := outputs } :=
  ⟨h.name_eq, h.registered, fun x hx => by
    rcases DAGNode.outputTokens_subset ho hx with hx' | rfl
    · exact h.tokens_in_deps x hx'
    · obtain ⟨_, _, _, hH, hE⟩ := DAGNode.mem_outputTokens.1 hx
      rcases hd with hd | hd | hd
      · exact hd
      · exact absurd hd hH
      · exact absurd hd hE⟩

end NodeWF

/-! ### Every primitive keeps the invariant -/

namespace WellFormed

variable {b b' : DAGBuilder} {k : String}

theorem empty : WellFormed DAGBuilder.empty := fun _ _ h => by simp at h

theorem getD (h : WellFormed b) (hk : k ∈ b.keys) : NodeWF b.keys k (b.getD k) := by
  obtain ⟨v, hv⟩ := mem_keys.1 hk
  rw [getD_of_get? hv]; exact h k v hv

theorem ensure (h : WellFormed b) : WellFormed (b.ensure k) := by
  intro n v hv
  have hmono : ∀ x ∈ b.keys, x ∈ (b.ensure k).keys := fun x hx => by simp [hx]
  rw [get?_ensure] at hv
  split at hv
  · cases hv; subst n
    unfold DAGBuilder.getD
    cases hk : b.get? k with
    | none => exact NodeWF.fresh _
    | some v => exact (h k v hk).mono hmono
  · exact (h n v hv).mono hmono

theorem modifyNode (h : WellFormed b) (hk : k ∈ b.keys) {f : DAGNode → DAGNode}
    (hf : NodeWF b.keys k (f (b.getD k))) : WellFormed (b.modifyNode k f) := by
  intro n v hv
  obtain ⟨w, hw⟩ := mem_keys.1 hk
  rw [keys_modifyNode]
  rw [get?_modifyNode, hw] at hv
  split at hv
  · subst n; cases hv; rwa [getD_of_get? hw] at hf
  · exact h n v hv

theorem resolve (h : WellFormed b) (t : DAGNodeType) : WellFormed (b.resolve k t) :=
  h.ensure.modifyNode (by simp) (h.ensure.getD (by simp) |>.resolveType t)

theorem getOrCreateNode (h : WellFormed b) {t : DAGNodeType} {n : DAGNode}
    (hr : HathorCore.DagBuilder.getOrCreateNode k t b = .ok n b') : WellFormed b' := by
  rw [getOrCreateNode_ok hr]; exact h.resolve t

theorem addParentEdge (h : WellFormed b) {_from _to : String}
    (hr : HathorCore.DagBuilder.addParentEdge _from _to b = .ok () b') : WellFormed b' := by
  rw [addParentEdge_apply] at hr; cases hr
  have h2 : WellFormed ((b.ensure _to).ensure _from) := h.ensure.ensure
  exact h2.modifyNode (by simp) ((h2.getD (by simp)).addParent (by simp))

theorem addDeps (h : WellFormed b) {_from _to : String}
    (hr : HathorCore.DagBuilder.addDeps _from _to b = .ok () b') : WellFormed b' := by
  rw [addDeps_apply] at hr; cases hr
  have h2 : WellFormed ((b.ensure _from).ensure _to) := h.ensure.ensure
  exact h2.modifyNode (by simp) ((h2.getD (by simp)).addDep (by simp))

theorem addSpendingEdge (h : WellFormed b) {_from _to : String} {i : Int}
    (hr : HathorCore.DagBuilder.addSpendingEdge _from _to i b = .ok () b') : WellFormed b' := by
  rw [addSpendingEdge_apply] at hr; cases hr
  have h1 : WellFormed (if ((b.getD _to).outputs.length : Int) ≤ i then
      (b.ensure _to).modifyNode _to fun n => { n with outputs := spendOutputs n.outputs i }
      else b.ensure _to) := by
    split
    · exact h.ensure.modifyNode (by simp) ((h.ensure.getD (by simp)).setOutputs _
        (fun _ ho => mem_spendOutputs (by simpa using ho)) (.inr (.inr rfl)))
    · exact h.ensure
  have hto : _to ∈ (if ((b.getD _to).outputs.length : Int) ≤ i then
      (b.ensure _to).modifyNode _to fun n => { n with outputs := spendOutputs n.outputs i }
      else b.ensure _to).keys := by split <;> simp [keys_modifyNode]
  exact h1.ensure.modifyNode (by simp) ((h1.ensure.getD (by simp)).addInput (by simp [hto]))

theorem setOutput (h : WellFormed b) {name : String} {index amount : Int} {token : String}
    {attrs : List (String × String)}
    (hr : HathorCore.DagBuilder.setOutput name index amount token attrs b = .ok () b') :
    WellFormed b' := by
  obtain ⟨outputs, hw, rfl, -⟩ := setOutput_ok b hr
  have hname : name ∈ (b.ensure name).keys := by simp
  have hslots : ∀ o ∈ outputs, o ∈ ((b.ensure name).getD name).outputs ∨ o = none ∨
      o = some ⟨amount, token, attrs⟩ := fun o ho => by
    rw [getD_ensure]; exact mem_of_writeOutput hw ho
  split
  · exact h.ensure.modifyNode hname ((h.ensure.getD hname).setOutputs _ hslots (.inr (.inl ‹_›)))
  · rw [resolve_modifyNode _ (fun n => by unfold DAGNode.resolveType; split <;> rfl) hname,
      modifyNode_modifyNode]
    have h2 : WellFormed ((b.ensure name).resolve token .Token) := h.ensure.resolve .Token
    have hn := (h2.getD (show name ∈ ((b.ensure name).resolve token .Token).keys by simp)).addDep
      (show token ∈ ((b.ensure name).resolve token .Token).keys by simp)
    refine h2.modifyNode (by simp) (hn.setOutputs ⟨amount, token, attrs⟩ (fun o ho => ?_)
      (.inl (by simp)))
    rcases hslots o ho with ho | ho | ho
    · left; rwa [getD_resolve_field DAGNode.outputs (fun _ _ => rfl)]
    · exact .inr (.inl ho)
    · exact .inr (.inr ho)

theorem addAttribute (h : WellFormed b) {name key value : String}
    (hr : HathorCore.DagBuilder.addAttribute name key value b = .ok () b') : WellFormed b' := by
  rcases addAttribute_ok b hr with ⟨-, t, -, rfl⟩ | ⟨-, rfl⟩
  · exact h.ensure.modifyNode (by simp) ((h.ensure.getD (by simp)).setType t)
  · exact h.ensure.modifyNode (by simp) ((h.ensure.getD (by simp)).setAttrs _)

theorem apply (h : WellFormed b) : ∀ {t : Token}, t.apply b = .ok () b' → WellFormed b'
  | .parent .., hr => h.addParentEdge hr
  | .spend .., hr => h.addSpendingEdge hr
  | .attribute .., hr => h.addAttribute hr
  | .orderBefore .., hr => h.addDeps hr
  | .output .., hr => h.setOutput hr
  | .blockchain pfx .., hr =>
    addBlockchainLoop_induction WellFormed (fun _ _ _ _ hb hr => hb.getOrCreateNode hr)
      (fun _ _ _ _ hb hr => hb.addParentEdge hr) pfx _ _ _ _ _ h hr

end WellFormed

theorem Reachable.wellFormed {b : DAGBuilder} (h : Reachable b) : WellFormed b :=
  h.induction WellFormed WellFormed.empty fun _ _ _ hb hr => hb.apply hr

/-! ### The registry law -/

/-- The registry law of the recorder: keys name their nodes; parents, spent nodes and deps are
    registered; non-native output tokens are deps; so the spec's full dependency set is the set
    `get_all_dependencies` yields, and it lies inside the registry. -/
structure RegistryClosed (b : DAGBuilder) : Prop where
  key_name : ∀ k v, (k, v) ∈ b.nodes → v.name = k
  edges_registered : ∀ k v, b.get? k = some v →
    (∀ x ∈ v.parents, x ∈ b.keys) ∧ (∀ i ∈ v.inputs, i.name ∈ b.keys) ∧ ∀ x ∈ v.deps, x ∈ b.keys
  tokens_in_deps : ∀ k v, b.get? k = some v → ∀ d, some d ∈ v.outputs →
    d.token ≠ "HTR" → d.token ≠ "" → d.token ∈ v.deps
  full_eq : ∀ k v, b.get? k = some v →
    ∀ x, x ∈ v.fullDependencies ↔ x ∈ v.getAllDependencies
  full_registered : ∀ k v, b.get? k = some v → ∀ x ∈ v.fullDependencies, x ∈ b.keys

theorem NodeWF.mem_fullDependencies {keys : List String} {k : String} {v : DAGNode}
    (h : NodeWF keys k v) (x : String) : x ∈ v.fullDependencies ↔ x ∈ v.getAllDependencies := by
  simp only [DAGNode.fullDependencies, DAGNode.getAllDependencies, List.mem_append]
  exact ⟨fun hx => hx.elim id fun hx => .inr (h.tokens_in_deps x hx), .inl⟩

/-- Every registry a run of `parse_tokens` returns normally from satisfies the registry law. -/
theorem reachable_registry_closed {b : DAGBuilder} (h : Reachable b) : RegistryClosed b := by
  have wf := h.wellFormed
  refine ⟨fun k v hv => (wf k v (mem_nodes.1 hv)).name_eq, fun k v hv => ?_,
    fun k v hv d hd hH hE => (wf k v hv).tokens_in_deps _ (DAGNode.mem_outputTokens.2 ⟨d, hd, rfl, hH, hE⟩),
    fun k v hv => (wf k v hv).mem_fullDependencies,
    fun k v hv x hx => (wf k v hv).registered x (((wf k v hv).mem_fullDependencies x).1 hx)⟩
  have reg := (wf k v hv).registered
  exact ⟨fun x hx => reg x (by simp [hx]), fun i hi => reg _ (by simp; exact .inr (.inl ⟨i, hi, rfl⟩)),
    fun x hx => reg x (by simp [hx])⟩

theorem reachable_registry_closed_script :
    Reachable (Recorder.after (parseTokens endToEndScript .empty)) ∧
      RegistryClosed (Recorder.after (parseTokens endToEndScript .empty)) :=
  ⟨⟨endToEndScript, rfl⟩, reachable_registry_closed ⟨endToEndScript, rfl⟩⟩

end HathorCore.DagBuilder
