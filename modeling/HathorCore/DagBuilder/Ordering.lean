import HathorCore.DagBuilder.Kahn
import HathorCore.DagBuilder.Closure
import Mathlib.Data.Fintype.Card
import Mathlib.Logic.Relation

/-! # DAG builder: what the sort yields

The run lemma of `Kahn.lean` says how the sort ends; here it is read against the dependency
graph. A name is `Settled` when it is registered and all its dependencies are: the sort emits
exactly the settled names, each once and after its dependencies, in every iteration order of
its sets, and raises exactly when a registered name is not settled. In a registry that
`parse_tokens` builds every dependency is registered (`Closure.lean`), and there a registered
name is settled exactly when no cycle can be reached from it. -/

namespace HathorCore.DagBuilder

open DAGBuilder Relation

/-! ### The dependency graph -/

/-- An edge of the dependency graph: `x` is in the dependency set of the registered node `n`. -/
def DepEdge (b : DAGBuilder) (n x : String) : Prop :=
  n ∈ b.keys ∧ x ∈ (b.getD n).getAllDependencies

/-- The dependency graph has a cycle, self-loops included. -/
def HasCycle (b : DAGBuilder) : Prop := ∃ n, TransGen (DepEdge b) n n

/-- A cycle can be reached from `n` along dependency edges. -/
def ReachesCycle (b : DAGBuilder) (n : String) : Prop :=
  ∃ m, ReflTransGen (DepEdge b) n m ∧ TransGen (DepEdge b) m m

/-- The names that can be emitted after all their dependencies: registered, with every
    dependency such a name. -/
inductive Settled (b : DAGBuilder) : String → Prop
  | intro {n : String} : n ∈ b.keys →
      (∀ x ∈ (b.getD n).getAllDependencies, Settled b x) → Settled b n

/-- Every dependency of a registered node is registered. -/
def Closed (b : DAGBuilder) : Prop :=
  ∀ n ∈ b.keys, ∀ x ∈ (b.getD n).getAllDependencies, x ∈ b.keys

/-- Every node of `ys` comes after each member of its dependency set. -/
def DepsBefore (ys : List DAGNode) : Prop :=
  ∀ pre y post, ys = pre ++ y :: post → ∀ x ∈ y.getAllDependencies, x ∈ pre.map DAGNode.name

section Graph

variable {b : DAGBuilder} {n : String}

theorem Settled.mem_keys (h : Settled b n) : n ∈ b.keys := by cases h; assumption

/-- A name that reaches a cycle has a dependency that reaches it. -/
theorem ReachesCycle.dependency (h : ReachesCycle b n) : ∃ x, DepEdge b n x ∧ ReachesCycle b x := by
  obtain ⟨m, hnm, hmm⟩ := h
  rcases hnm.cases_head with rfl | ⟨x, hnx, hxm⟩
  · obtain ⟨x, hnx, hxn⟩ := TransGen.head'_iff.1 hmm
    exact ⟨x, hnx, _, hxn, hmm⟩
  · exact ⟨x, hnx, m, hxm, hmm⟩

theorem Settled.not_reachesCycle (h : Settled b n) : ¬ ReachesCycle b n := by
  induction h with
  | intro _ _ ih =>
    intro hc
    obtain ⟨x, ⟨-, hx⟩, hxc⟩ := hc.dependency
    exact ih x hx hxc

/-- In a closed registry a registered name that reaches no cycle is settled: the names below it
    form a finite graph without cycles, so strictly-below is well founded. -/
theorem settled_of_not_reachesCycle (hcl : Closed b) (hn : n ∈ b.keys) (h : ¬ ReachesCycle b n) :
    Settled b n := by
  let below : {x // x ∈ b.keys.toFinset} → {x // x ∈ b.keys.toFinset} → Prop :=
    fun y x => ReflTransGen (DepEdge b) n x.1 ∧ TransGen (DepEdge b) x.1 y.1
  haveI : IsTrans _ below := ⟨fun _ _ _ hab hbc => ⟨hbc.1, hbc.2.trans hab.2⟩⟩
  haveI : IsIrrefl _ below := ⟨fun x hx => h ⟨x.1, hx.1, hx.2⟩⟩
  suffices ∀ x : {x // x ∈ b.keys.toFinset}, ReflTransGen (DepEdge b) n x.1 → Settled b x.1 from
    this ⟨n, List.mem_toFinset.2 hn⟩ .refl
  intro x
  induction x using (Finite.wellFounded_of_trans_of_irrefl below).induction with
  | h x ih =>
    intro hx
    have hxk : x.1 ∈ b.keys := List.mem_toFinset.1 x.2
    refine .intro hxk fun y hy => ?_
    have edge : DepEdge b x.1 y := ⟨hxk, hy⟩
    exact ih ⟨y, List.mem_toFinset.2 (hcl _ hxk y hy)⟩ ⟨hx, .single edge⟩ (hx.tail edge)

theorem settled_iff_not_reachesCycle (hcl : Closed b) (hn : n ∈ b.keys) :
    Settled b n ↔ ¬ ReachesCycle b n :=
  ⟨Settled.not_reachesCycle, settled_of_not_reachesCycle hcl hn⟩

theorem hasCycle_iff : HasCycle b ↔ ∃ n ∈ b.keys, ReachesCycle b n :=
  ⟨fun ⟨n, h⟩ => ⟨n, (TransGen.head'_iff.1 h).elim fun _ h => h.1.1, n, .refl, h⟩,
    fun ⟨_, _, m, _, h⟩ => ⟨m, h⟩⟩

end Graph

/-! ### Registries that `parse_tokens` builds -/

theorem Reachable.names_match {b : DAGBuilder} (hb : Reachable b) :
    ∀ k v, b.get? k = some v → v.name = k :=
  fun k v hv => (hb.wellFormed k v hv).name_eq

theorem Reachable.closed {b : DAGBuilder} (hb : Reachable b) : Closed b := fun n hn x hx => by
  obtain ⟨v, hv⟩ := mem_keys.1 hn
  rw [getD_of_get? hv] at hx
  exact (hb.wellFormed n v hv).registered x hx

/-! ### The names the sort emits -/

section Emitted

variable {b : DAGBuilder}

theorem DepsFirst.nodup : ∀ {done ns : List String}, DepsFirst b done ns →
    ns.Nodup ∧ ∀ n ∈ ns, n ∉ done
  | _, [], _ => ⟨List.nodup_nil, by simp⟩
  | _, n :: _, ⟨_, hn, _, h⟩ => by
    obtain ⟨hnd, hfresh⟩ := h.nodup
    refine ⟨List.nodup_cons.2 ⟨fun hm => hfresh n hm (List.mem_cons_self _ _), hnd⟩, fun m hm => ?_⟩
    rcases List.mem_cons.1 hm with rfl | hm
    · exact hn
    · exact fun hd => hfresh m hm (List.mem_cons_of_mem _ hd)

theorem DepsFirst.keys : ∀ {done ns : List String}, DepsFirst b done ns → ∀ n ∈ ns, n ∈ b.keys
  | _, [], _ => by simp
  | _, _ :: _, ⟨hk, _, _, h⟩ => fun n hn => by
    rcases List.mem_cons.1 hn with rfl | hn
    · exact hk
    · exact h.keys n hn

/-- Names emitted after their dependencies, starting from settled names, are settled. -/
theorem DepsFirst.settled : ∀ {done ns : List String}, DepsFirst b done ns →
    (∀ x ∈ done, Settled b x) → ∀ n ∈ ns, Settled b n
  | _, [], _, _ => by simp
  | _, n :: _, ⟨hk, _, hdeps, h⟩, hdone => by
    have hn : Settled b n := .intro hk fun x hx => hdone x (hdeps x hx)
    have hdone' : ∀ x ∈ n :: _, Settled b x := fun x hx => by
      rcases List.mem_cons.1 hx with rfl | hx
      · exact hn
      · exact hdone x hx
    intro m hm
    rcases List.mem_cons.1 hm with rfl | hm
    · exact hn
    · exact h.settled hdone' m hm

/-- The nodes of names emitted in a `DepsFirst` order come each after its dependencies. -/
theorem DepsFirst.depsBefore (hname : ∀ n ∈ b.keys, (b.getD n).name = n) :
    ∀ {done ns : List String}, DepsFirst b done ns → ∀ pre y post,
      ns.map b.getD = pre ++ y :: post →
        ∀ x ∈ y.getAllDependencies, x ∈ done ∨ x ∈ pre.map DAGNode.name
  | _, [], _, pre, _, _, heq => by simp at heq
  | _, n :: _, ⟨hk, _, hdeps, h⟩, pre, y, post, heq => by
    intro x hx
    cases pre with
    | nil =>
      obtain ⟨rfl, -⟩ := List.cons.inj heq
      exact .inl (hdeps x hx)
    | cons p pre =>
      obtain ⟨rfl, htail⟩ := List.cons.inj heq
      rcases h.depsBefore hname pre y post htail x hx with hd | hd
      · rcases List.mem_cons.1 hd with rfl | hd
        · exact .inr (by simp [hname _ hk])
        · exact .inl hd
      · exact .inr (List.mem_cons_of_mem _ hd)

/-- With the pool empty, every settled name has been seen. -/
theorem Kahn.settled_seen {st : SortState} (h : Kahn b st) (hc : st.candidates = [])
    {n : String} (hn : Settled b n) : n ∈ st.seen := by
  induction hn with
  | intro hk _ ih =>
    rcases (h.ready _ hk).2 ih with hs | hpool
    · exact hs
    · simp [hc] at hpool

/-- For a registry whose keys name their nodes, in every iteration order of its sets: the sort
    yields, each after its dependencies, the nodes of exactly the settled names, and either
    finishes, all registered names being settled, or raises the logger's `TypeError`. -/
theorem topologicalSorting_settled (o : SetOrder) (b : DAGBuilder)
    (hname : ∀ k v, b.get? k = some v → v.name = k) :
    ∃ names, (topologicalSorting o b).1 = names.map b.getD ∧ DepsFirst b [] names ∧
      (∀ n, n ∈ names ↔ Settled b n) ∧
      (((topologicalSorting o b).2 = none ∧ ∀ n ∈ b.keys, Settled b n) ∨
        ((∃ n ∈ b.keys, ¬ Settled b n) ∧ (topologicalSorting o b).2 = some .typeError)) := by
  obtain ⟨names, stF, hF, hseen, hdf, hys, hout⟩ := topologicalSorting_run o b hname
  have hnd := hdf.nodup.1
  have hset : ∀ n ∈ names, Settled b n := hdf.settled (by simp)
  rcases hout with ⟨hl, he⟩ | ⟨hl, hcF, he⟩
  · have hall : ∀ n ∈ b.keys, n ∈ names := fun n hn =>
      ((List.subperm_of_subset hnd hdf.keys).perm_of_length_le hl.ge).mem_iff.2 hn
    exact ⟨names, hys, hdf, fun n => ⟨hset n, fun h => hall n h.mem_keys⟩,
      .inl ⟨he, fun n hn => hset n (hall n hn)⟩⟩
  · have hmem : ∀ n, n ∈ names ↔ Settled b n := fun n =>
      ⟨hset n, fun h => List.mem_reverse.1 (hseen ▸ hF.settled_seen hcF h)⟩
    refine ⟨names, hys, hdf, hmem, .inr ⟨?_, he⟩⟩
    by_contra hall
    push_neg at hall
    have := (List.subperm_of_subset b.keys_nodup fun n hn => (hmem n).2 (hall n hn)).length_le
    omega

/-- The sort finishes without raising exactly when every registered name is settled. -/
theorem topologicalSorting_none_iff (o : SetOrder) (b : DAGBuilder)
    (hname : ∀ k v, b.get? k = some v → v.name = k) :
    (topologicalSorting o b).2 = none ↔ ∀ n ∈ b.keys, Settled b n := by
  obtain ⟨_, -, -, -, hout⟩ := topologicalSorting_settled o b hname
  rcases hout with ⟨hnone, hall⟩ | ⟨⟨n, hn, hns⟩, he⟩
  · exact ⟨fun _ => hall, fun _ => hnone⟩
  · exact ⟨fun h => by simp [h] at he, fun hall => absurd (hall n hn) hns⟩

end Emitted

/-! ### The order of the nodes yielded -/

theorem getD_name_of_names {b : DAGBuilder} (hname : ∀ k v, b.get? k = some v → v.name = k)
    {n : String} (hn : n ∈ b.keys) : b.get? n = some (b.getD n) ∧ (b.getD n).name = n := by
  obtain ⟨v, hv⟩ := mem_keys.1 hn
  rw [getD_of_get? hv]
  exact ⟨hv, hname n v hv⟩

/-- The nodes of emitted names carry those names. -/
theorem DepsFirst.map_name {b : DAGBuilder} (hname : ∀ k v, b.get? k = some v → v.name = k)
    {done ns : List String} (h : DepsFirst b done ns) : (ns.map b.getD).map DAGNode.name = ns := by
  rw [List.map_map]; conv_rhs => rw [← List.map_id ns]
  exact List.map_congr_left fun n hn => (getD_name_of_names hname (h.keys n hn)).2

/-- For a registry whose keys name their nodes and every iteration order of its sets: the nodes
    the sort yields are distinct registered nodes, each after every member of its dependency
    set, so that every prefix a consumer reads is such a list; and when the sort finishes
    without raising it has yielded `len(_nodes)` nodes, every registered node. -/
theorem topological_sorting_yields_in_order (o : SetOrder) (b : DAGBuilder)
    (hname : ∀ k v, b.get? k = some v → v.name = k) :
    (topologicalSorting o b).1.Nodup ∧
      (∀ y ∈ (topologicalSorting o b).1, b.get? y.name = some y) ∧
      DepsBefore (topologicalSorting o b).1 ∧
      ((topologicalSorting o b).2 = none →
        (topologicalSorting o b).1.length = b.nodes.length ∧
          ∀ k v, b.get? k = some v → v ∈ (topologicalSorting o b).1) := by
  obtain ⟨names, hys, hdf, hmem, -⟩ := topologicalSorting_settled o b hname
  rw [hys]
  refine ⟨List.Nodup.of_map DAGNode.name (by rw [hdf.map_name hname]; exact hdf.nodup.1),
    fun y hy => ?_, fun pre y post heq x hx => ?_, fun hnone => ?_⟩
  · obtain ⟨n, hn, rfl⟩ := List.mem_map.1 hy
    obtain ⟨hget, hn'⟩ := getD_name_of_names hname (hdf.keys n hn)
    rw [hn']; exact hget
  · simpa using hdf.depsBefore (fun n hn => (getD_name_of_names hname hn).2) pre y post heq x hx
  · have hperm : names.Perm b.keys := (List.perm_ext_iff_of_nodup hdf.nodup.1 b.keys_nodup).2
      fun n => (hmem n).trans ⟨Settled.mem_keys, (topologicalSorting_none_iff o b hname).1 hnone n⟩
    refine ⟨by rw [List.length_map, hperm.length_eq, keys, List.length_map], fun k v hv => ?_⟩
    have hk := mem_keys_of_get? hv
    exact List.mem_map.2 ⟨k, hperm.mem_iff.2 hk, getD_of_get? hv⟩

/-- The end-to-end script's registry, whose keys name their nodes. -/
theorem topological_sorting_yields_in_order_script :
    (∀ k v, (Recorder.after (parseTokens endToEndScript .empty)).get? k = some v → v.name = k) ∧
    ((topologicalSorting .insertion (Recorder.after (parseTokens endToEndScript .empty))).1.Nodup ∧
      (∀ y ∈ (topologicalSorting .insertion (Recorder.after (parseTokens endToEndScript .empty))).1,
        (Recorder.after (parseTokens endToEndScript .empty)).get? y.name = some y) ∧
      DepsBefore (topologicalSorting .insertion
        (Recorder.after (parseTokens endToEndScript .empty))).1 ∧
      ((topologicalSorting .insertion (Recorder.after (parseTokens endToEndScript .empty))).2 = none →
        (topologicalSorting .insertion
            (Recorder.after (parseTokens endToEndScript .empty))).1.length =
          (Recorder.after (parseTokens endToEndScript .empty)).nodes.length ∧
        ∀ k v, (Recorder.after (parseTokens endToEndScript .empty)).get? k = some v →
          v ∈ (topologicalSorting .insertion
            (Recorder.after (parseTokens endToEndScript .empty))).1)) :=
  ⟨Reachable.names_match ⟨endToEndScript, rfl⟩, topological_sorting_yields_in_order _ _
    (Reachable.names_match ⟨endToEndScript, rfl⟩)⟩

/-! ### Cycles -/

/-- For a registry that a run of `parse_tokens` returns normally from, in every iteration order
    of its sets: the sort raises exactly when the dependency graph has a cycle, and the nodes it
    yields, before raising or not, are those of the registered names from which no cycle can be
    reached. What it raises on a cycle is not the cycle `RuntimeError` but the `TypeError` of
    calling the bound logger, so the names never emitted are reported nowhere. -/
theorem topological_sorting_cycle_raises_type_error (o : SetOrder) (b : DAGBuilder)
    (hb : Reachable b) :
    ((∃ e, (topologicalSorting o b).2 = some e) ↔ HasCycle b) ∧
      (HasCycle b → (topologicalSorting o b).2 = some .typeError) ∧
      ∀ n ∈ b.keys, (∃ y ∈ (topologicalSorting o b).1, y.name = n) ↔ ¬ ReachesCycle b n := by
  have hname := hb.names_match
  have settled_iff : ∀ n ∈ b.keys, Settled b n ↔ ¬ ReachesCycle b n := fun n hn =>
    settled_iff_not_reachesCycle hb.closed hn
  obtain ⟨names, hys, hdf, hmem, hout⟩ := topologicalSorting_settled o b hname
  have yielded : ∀ n ∈ b.keys,
      (∃ y ∈ (topologicalSorting o b).1, y.name = n) ↔ ¬ ReachesCycle b n := fun n hn => by
    rw [← settled_iff n hn, ← hmem, ← hdf.map_name hname, hys, List.mem_map]
  rcases hout with ⟨hnone, hall⟩ | ⟨⟨n, hn, hns⟩, he⟩
  · -- every registered name is settled, so no cycle can be reached from any of them
    have acyclic : ¬ HasCycle b := fun hc =>
      let ⟨n, hn, hr⟩ := hasCycle_iff.1 hc
      (settled_iff n hn).1 (hall n hn) hr
    exact ⟨⟨fun ⟨e, he⟩ => by simp [hnone] at he, fun hc => absurd hc acyclic⟩,
      fun hc => absurd hc acyclic, yielded⟩
  · have hc : HasCycle b := hasCycle_iff.2 ⟨n, hn, not_not.1 (mt (settled_iff n hn).2 hns)⟩
    exact ⟨⟨fun _ => hc, fun _ => ⟨_, he⟩⟩, fun _ => he, yielded⟩

/-- The spec's cycle, `add_deps('A', 'B')` then `add_deps('B', 'A')`: the sort yields nothing
    and raises `TypeError`. -/
theorem topological_sorting_cycle_raises_type_error_ab :
    Reachable (Recorder.after (parseTokens [.orderBefore "A" "B", .orderBefore "B" "A"] .empty)) ∧
      HasCycle (Recorder.after (parseTokens [.orderBefore "A" "B", .orderBefore "B" "A"] .empty)) ∧
      (topologicalSorting .insertion
        (Recorder.after (parseTokens [.orderBefore "A" "B", .orderBefore "B" "A"] .empty))).2 =
        some .typeError ∧
      (topologicalSorting .insertion
        (Recorder.after (parseTokens [.orderBefore "A" "B", .orderBefore "B" "A"] .empty))).1 = [] :=
  have hb : Reachable (Recorder.after
      (parseTokens [.orderBefore "A" "B", .orderBefore "B" "A"] .empty)) :=
    ⟨[.orderBefore "A" "B", .orderBefore "B" "A"], rfl⟩
  have hc : HasCycle (Recorder.after
      (parseTokens [.orderBefore "A" "B", .orderBefore "B" "A"] .empty)) :=
    ⟨"A", (TransGen.single (show DepEdge _ "A" "B" from ⟨by decide, by decide⟩)).tail
      (show DepEdge _ "B" "A" from ⟨by decide, by decide⟩)⟩
  ⟨hb, hc, (topological_sorting_cycle_raises_type_error .insertion _ hb).2.1 hc, rfl⟩

/-! ### Independence from the hash seed -/

/-- Whatever the iteration orders of its sets, the sort yields the same nodes, in two orders
    that are permutations of each other, and it raises under both or under neither. -/
theorem topological_sorting_order_independent (o₁ o₂ : SetOrder) (b : DAGBuilder)
    (hname : ∀ k v, b.get? k = some v → v.name = k) :
    (topologicalSorting o₁ b).1.Perm (topologicalSorting o₂ b).1 ∧
      ((topologicalSorting o₁ b).2 = none ↔ (topologicalSorting o₂ b).2 = none) := by
  obtain ⟨names₁, hys₁, hdf₁, hmem₁, -⟩ := topologicalSorting_settled o₁ b hname
  obtain ⟨names₂, hys₂, hdf₂, hmem₂, -⟩ := topologicalSorting_settled o₂ b hname
  refine ⟨?_, (topologicalSorting_none_iff o₁ b hname).trans
    (topologicalSorting_none_iff o₂ b hname).symm⟩
  rw [hys₁, hys₂]
  exact ((List.perm_ext_iff_of_nodup hdf₁.nodup.1 hdf₂.nodup.1).2
    fun n => (hmem₁ n).trans (hmem₂ n).symm).map _

/-- Two iteration orders on the registry where `b` and `c` are both parented to `a`. -/
theorem topological_sorting_order_independent_abc :
    (∀ k v, (Recorder.after (parseTokens [.parent "b" "a", .parent "c" "a"] .empty)).get? k =
        some v → v.name = k) ∧
    (topologicalSorting .insertion
        (Recorder.after (parseTokens [.parent "b" "a", .parent "c" "a"] .empty))).1.Perm
      (topologicalSorting .reversed
        (Recorder.after (parseTokens [.parent "b" "a", .parent "c" "a"] .empty))).1 ∧
    ((topologicalSorting .insertion
        (Recorder.after (parseTokens [.parent "b" "a", .parent "c" "a"] .empty))).2 = none ↔
      (topologicalSorting .reversed
        (Recorder.after (parseTokens [.parent "b" "a", .parent "c" "a"] .empty))).2 = none) :=
  ⟨Reachable.names_match ⟨[.parent "b" "a", .parent "c" "a"], rfl⟩,
    topological_sorting_order_independent _ _ _
      (Reachable.names_match ⟨[.parent "b" "a", .parent "c" "a"], rfl⟩)⟩

end HathorCore.DagBuilder
