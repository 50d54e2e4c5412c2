import HathorCore.DagBuilder.Ordering

/-! # DAG builder: the recorder only adds

`_get_or_create_node` only inserts into `_nodes`, and the recorder calls mutate a node only by
adding to its `parents`, `inputs` and `deps`, by writing its outputs, its attributes or its
kind. So every recorder call, whether it returns or raises, leaves the keys it found in front of
the keys it leaves, in the same order, and every node it found with each of its dependencies
(`Grows`). The property is stated once for a recorder computation (`Adds`), proved for the two
primitives and for `bind`, and each call follows from its own `do` block.

A run of `parse_tokens` is a chain of such calls: insertion order, which the sort reads, is never
disturbed, and a dependency cycle, once recorded, is never undone. On the registries
`parse_tokens` builds, a sort that raises keeps raising after any further recording, in every
iteration order of its sets. -/

namespace HathorCore.DagBuilder

open DAGBuilder Relation

theorem DAGNode.getAllDependencies_subset {v w : DAGNode} (hp : v.parents ⊆ w.parents)
    (hi : v.inputs ⊆ w.inputs) (hd : v.deps ⊆ w.deps) :
    v.getAllDependencies ⊆ w.getAllDependencies := fun x hx => by
  simp only [DAGNode.mem_getAllDependencies] at hx ⊢
  rcases hx with h | ⟨i, hin, h⟩ | h
  exacts [.inl (hp h), .inr (.inl ⟨i, hi hin, h⟩), .inr (.inr (hd h))]

theorem subset_setAdd {α : Type} [DecidableEq α] (s : List α) (x : α) : s ⊆ setAdd s x :=
  fun _ h => (mem_setAdd _ _ _).2 (.inl h)

/-- `b'` extends `b`: the keys of `b` come first in `b'`, in the same order, and every node of
    `b` keeps each of its dependencies. -/
structure Grows (b b' : DAGBuilder) : Prop where
  keys_front : b.keys <+: b'.keys
  deps_subset : ∀ n ∈ b.keys, (b.getD n).getAllDependencies ⊆ (b'.getD n).getAllDependencies

namespace Grows

variable {b b' b'' : DAGBuilder}

theorem refl (b : DAGBuilder) : Grows b b := ⟨List.prefix_refl _, fun _ _ => List.Subset.refl _⟩

theorem trans (h : Grows b b') (h' : Grows b' b'') : Grows b b'' :=
  ⟨h.keys_front.trans h'.keys_front, fun n hn =>
    (h.deps_subset n hn).trans (h'.deps_subset n (h.keys_front.subset hn))⟩

theorem ensure (b : DAGBuilder) (k : String) : Grows b (b.ensure k) := by
  refine ⟨?_, fun n _ => by rw [getD_ensure]; exact List.Subset.refl _⟩
  rw [keys_ensure]; split
  exacts [List.prefix_refl _, List.prefix_append _ _]

theorem modifyNode (b : DAGBuilder) (k : String) {f : DAGNode → DAGNode}
    (hf : ∀ v, v.getAllDependencies ⊆ (f v).getAllDependencies) : Grows b (b.modifyNode k f) := by
  refine ⟨by rw [keys_modifyNode], fun n hn => ?_⟩
  by_cases h : n = k
  · subst h; rw [getD_modifyNode_of_mem f hn, if_pos rfl]; exact hf _
  · rw [getD_modifyNode_ne f h]; exact List.Subset.refl _

theorem resolve (b : DAGBuilder) (k : String) (t : DAGNodeType) : Grows b (b.resolve k t) :=
  (ensure b k).trans (modifyNode _ k fun v => by
    unfold DAGNode.resolveType; split <;> exact List.Subset.refl _)

/-- A dependency edge of `b` is one of `b'`. -/
theorem depEdge (h : Grows b b') {n x : String} (he : DepEdge b n x) : DepEdge b' n x :=
  ⟨h.keys_front.subset he.1, h.deps_subset n he.1 he.2⟩

theorem hasCycle (h : Grows b b') (hc : HasCycle b) : HasCycle b' :=
  let ⟨n, hn⟩ := hc
  ⟨n, hn.mono fun _ _ => h.depEdge⟩

end Grows

/-- What the recorder computation `x` leaves, whether it returns or raises, extends the registry
    it starts from. -/
def Adds {α : Type} (x : Recorder α) : Prop := ∀ b, Grows b (Recorder.after (x b))

namespace Adds

theorem pure {α : Type} (a : α) : Adds (Pure.pure a : Recorder α) := fun b => Grows.refl b

theorem throw {α : Type} (e : BuilderError) : Adds (MonadExcept.throw e : Recorder α) :=
  fun b => Grows.refl b

theorem bind {α β : Type} {x : Recorder α} {f : α → Recorder β} (hx : Adds x)
    (hf : ∀ a, Adds (f a)) : Adds (x >>= f) := fun b => by
  have h := hx b
  rw [Recorder.bind_apply, EStateM.bind]
  cases hb : x b with
  | ok a b₁ => rw [hb] at h; exact h.trans (hf a b₁)
  | error e b₁ => rw [hb] at h; exact h

theorem ite {α : Type} {c : Prop} [Decidable c] {x y : Recorder α} (hx : Adds x) (hy : Adds y) :
    Adds (if c then x else y) := by
  split <;> assumption

theorem getOrCreateNode (name : String) (t : DAGNodeType) :
    Adds (HathorCore.DagBuilder.getOrCreateNode name t) := fun b => by
  rcases getOrCreateNode_cases name t b with ⟨e, he⟩ | hok
  · rw [he]; exact Grows.refl b
  · rw [hok]; exact Grows.resolve b name t

theorem updateNode (name : String) {f : DAGNode → DAGNode}
    (hf : ∀ v, v.getAllDependencies ⊆ (f v).getAllDependencies) :
    Adds (HathorCore.DagBuilder.updateNode name f) :=
  fun b => Grows.modifyNode b name hf

/-! ### The recorder calls -/

theorem addDeps (_from _to : String) : Adds (HathorCore.DagBuilder.addDeps _from _to) :=
  .bind (.getOrCreateNode _ _) fun _ => .bind (.getOrCreateNode _ _) fun _ =>
    .updateNode _ fun _ =>
      DAGNode.getAllDependencies_subset (fun _ h => h) (fun _ h => h) (subset_setAdd _ _)

theorem addParentEdge (_from _to : String) :
    Adds (HathorCore.DagBuilder.addParentEdge _from _to) :=
  .bind (.getOrCreateNode _ _) fun _ => .bind (.getOrCreateNode _ _) fun _ =>
    .updateNode _ fun _ =>
      DAGNode.getAllDependencies_subset (subset_setAdd _ _) (fun _ h => h) (fun _ h => h)

theorem addSpendingEdge (_from _to : String) (i : Int) :
    Adds (HathorCore.DagBuilder.addSpendingEdge _from _to i) := by
  unfold HathorCore.DagBuilder.addSpendingEdge
  refine .bind (.getOrCreateNode _ _) fun to_node => ?_
  have spend : Adds (do
      let _ ← HathorCore.DagBuilder.getOrCreateNode _from
      HathorCore.DagBuilder.updateNode _from fun from_node =>
        { from_node with inputs := setAdd from_node.inputs ⟨_to, i⟩ }) :=
    .bind (.getOrCreateNode _ _) fun _ => .updateNode _ fun _ =>
      DAGNode.getAllDependencies_subset (fun _ h => h) (subset_setAdd _ _) (fun _ h => h)
  dsimp only
  split
  · exact .bind (.updateNode _ fun _ _ h => h) fun _ => spend
  · exact .bind (.pure _) fun _ => spend

theorem setOutput (name : String) (index amount : Int) (token : String)
    (attrs : List (String × String)) :
    Adds (HathorCore.DagBuilder.setOutput name index amount token attrs) := by
  unfold HathorCore.DagBuilder.setOutput
  refine .bind (.getOrCreateNode _ _) fun node => ?_
  have hdeps : ∀ v : DAGNode,
      v.getAllDependencies ⊆ { v with deps := setAdd v.deps token }.getAllDependencies :=
    fun _ => DAGNode.getAllDependencies_subset (fun _ h => h) (fun _ h => h) (subset_setAdd _ _)
  dsimp only
  split
  · exact .bind (.throw _) fun _ =>
      .ite (.bind (.getOrCreateNode _ _) fun _ => .updateNode _ hdeps) (.pure _)
  · exact .bind (.updateNode _ fun _ _ h => h) fun _ =>
      .ite (.bind (.getOrCreateNode _ _) fun _ => .updateNode _ hdeps) (.pure _)

theorem addAttribute (name key value : String) :
    Adds (HathorCore.DagBuilder.addAttribute name key value) :=
  .bind (.getOrCreateNode _ _) fun _ =>
    .ite (by split; exacts [.throw _, .updateNode _ fun _ _ h => h]) (.updateNode _ fun _ _ h => h)

theorem addBlockchainLoop (pfx : String) : ∀ (prev : Option String) (i : Int) (count : Nat),
    Adds (HathorCore.DagBuilder.addBlockchainLoop pfx prev i count)
  | _, _, 0 => .pure ()
  | prev, _, count + 1 => by
    unfold HathorCore.DagBuilder.addBlockchainLoop
    refine .bind (.getOrCreateNode _ _) fun _ => ?_
    dsimp only
    cases prev
    exacts [.bind (.pure _) fun _ => addBlockchainLoop pfx _ _ count,
      .bind (.addParentEdge _ _) fun _ => addBlockchainLoop pfx _ _ count]

theorem apply : ∀ t : Token, Adds t.apply
  | .parent .. => addParentEdge _ _
  | .spend .. => addSpendingEdge _ _ _
  | .attribute .. => addAttribute _ _ _
  | .orderBefore .. => addDeps _ _
  | .output .. => setOutput _ _ _ _ _
  | .blockchain .. => addBlockchainLoop _ _ _ _

theorem parseTokens : ∀ tokens : List Token, Adds (HathorCore.DagBuilder.parseTokens tokens)
  | [] => .pure ()
  | t :: ts => .bind (apply t) fun _ => parseTokens ts

end Adds

/-! ### Runs of `parse_tokens` -/

/-- Every run of `parse_tokens`, whether it returns or raises, only adds to the registry it
    starts from: the keys it found stay first, in insertion order, and each node it found keeps
    every member of its dependency set. -/
theorem parse_tokens_only_adds (tokens : List Token) (b : DAGBuilder) :
    b.keys <+: (Recorder.after (parseTokens tokens b)).keys ∧
      ∀ n ∈ b.keys, (b.getD n).getAllDependencies ⊆
        ((Recorder.after (parseTokens tokens b)).getD n).getAllDependencies :=
  ⟨(Adds.parseTokens tokens b).keys_front, (Adds.parseTokens tokens b).deps_subset⟩

/-- Two runs of `parse_tokens` that return normally, one after the other, are one run. -/
theorem parseTokens_append : ∀ (ts ts' : List Token) {b b₁ b₂ : DAGBuilder},
    parseTokens ts b = .ok () b₁ → parseTokens ts' b₁ = .ok () b₂ →
      parseTokens (ts ++ ts') b = .ok () b₂
  | [], _, _, _, _, h, h' => by cases h; exact h'
  | t :: ts, ts', b, _, _, h, h' => by
    rw [List.cons_append, parseTokens] at *
    cases ht : t.apply b with
    | ok _ b₀ => rw [Recorder.bind_ok ht] at h ⊢; exact parseTokens_append ts ts' h h'
    | error _ _ => rw [Recorder.bind_error ht] at h; cases h

theorem Reachable.parseTokens {b b' : DAGBuilder} (hb : Reachable b) {ts : List Token}
    (h : HathorCore.DagBuilder.parseTokens ts b = .ok () b') : Reachable b' :=
  let ⟨tokens, ht⟩ := hb
  ⟨tokens ++ ts, parseTokens_append tokens ts ht h⟩

/-- On a registry `parse_tokens` builds, the sort raises exactly when the dependency graph has a
    cycle. -/
theorem Reachable.sorting_raises_iff {b : DAGBuilder} (hb : Reachable b) (o : SetOrder) :
    (topologicalSorting o b).2.isSome ↔ HasCycle b := by
  rw [hasCycle_iff, ← not_iff_not, Option.not_isSome_iff_eq_none,
    topologicalSorting_none_iff o b hb.names_match]
  push_neg
  exact forall₂_congr fun n hn => settled_iff_not_reachesCycle hb.closed hn

/-- On a registry `parse_tokens` builds, a sort that raises, in some iteration order of its
    sets, raises in every order after any further run of `parse_tokens` that returns normally:
    recording more never undoes a dependency cycle. -/
theorem topological_sorting_keeps_raising (o o' : SetOrder) (b b' : DAGBuilder)
    (tokens : List Token) (hb : Reachable b) (h : parseTokens tokens b = .ok () b')
    (hraise : (topologicalSorting o b).2.isSome) : (topologicalSorting o' b').2.isSome := by
  have grows : Grows b b' := by simpa [h, Recorder.after] using Adds.parseTokens tokens b
  exact ((hb.parseTokens h).sorting_raises_iff o').2
    (grows.hasCycle ((hb.sorting_raises_iff o).1 hraise))

/-- `a` and `b` parented to each other, then `c` parented to `a`: the sort raises before and
    after. -/
theorem topological_sorting_keeps_raising_ab :
    Reachable (Recorder.after (parseTokens [.parent "a" "b", .parent "b" "a"] .empty)) ∧
      parseTokens [.parent "c" "a"]
          (Recorder.after (parseTokens [.parent "a" "b", .parent "b" "a"] .empty)) =
        .ok () (Recorder.after (parseTokens [.parent "a" "b", .parent "b" "a", .parent "c" "a"]
          .empty)) ∧
      (topologicalSorting .insertion
        (Recorder.after (parseTokens [.parent "a" "b", .parent "b" "a"] .empty))).2.isSome ∧
      (topologicalSorting .reversed (Recorder.after
        (parseTokens [.parent "a" "b", .parent "b" "a", .parent "c" "a"] .empty))).2.isSome :=
  ⟨⟨[.parent "a" "b", .parent "b" "a"], rfl⟩, rfl, rfl,
    topological_sorting_keeps_raising .insertion .reversed _ _ [.parent "c" "a"]
      ⟨[.parent "a" "b", .parent "b" "a"], rfl⟩ rfl rfl⟩

end HathorCore.DagBuilder
