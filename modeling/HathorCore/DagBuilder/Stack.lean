import HathorCore.DagBuilder.Safety

/-! # DAG builder: the pool is a stack

`topological_sorting` keeps its pool in the list `candidates`, appends to it and pops its last
item. The first loop appends the names with no dependency in insertion order, so the sort starts
with the last registered node that has none (`topological_sorting_first_yield`). Each emission
appends the dependents it readies, so whenever yielding a node readies a dependent of it, the
next node yielded is such a dependent: the sort goes depth first
(`topological_sorting_depth_first`), in every iteration order of its sets. -/

namespace HathorCore.DagBuilder

open DAGBuilder

variable {b : DAGBuilder} {st st' : SortState} {name : String} {rest : List String}

/-- `d` is a registered dependent of `n` with all its dependencies among `n` and `done`. -/
def Readied (b : DAGBuilder) (done : List String) (n d : String) : Prop :=
  d ∈ b.keys ∧ n ∈ (b.getD d).getAllDependencies ∧ ∀ x ∈ (b.getD d).getAllDependencies, x ∈ n :: done

/-- The iteration popping `name`, once its inner loop has returned. -/
theorem emitLoop_succ_of_releaseLoop (o : SetOrder) (h : Kahn b st)
    (hc : st.candidates = name :: rest)
    (hloop : releaseLoop name (o.iter name (st.rev_deps name))
      { st with seen := name :: st.seen, candidates := rest } = .ok st') (fuel : Nat) :
    emitLoop o b (fuel + 1) st =
      (b.getD name :: (emitLoop o b fuel st').1, (emitLoop o b fuel st').2) := by
  obtain ⟨v, hv⟩ := mem_keys.1 (h.cands_keys name (by simp [hc]))
  simp only [emitLoop, hc, if_neg (h.cands_fresh name (by simp [hc]))]
  rw [hloop]
  simp only [hv, getD_of_get? hv]

/-- When the emission of `name` readies a dependent of `name`, the last item of the pool it
    leaves, the next to be popped, is such a dependent. -/
theorem Kahn.next_readied (o : SetOrder) (h : Kahn b st) (hc : st.candidates = name :: rest)
    (hloop : releaseLoop name (o.iter name (st.rev_deps name))
      { st with seen := name :: st.seen, candidates := rest } = .ok st')
    (he : Emitted b st name rest st') {d : String} (hd : Readied b st.seen name d) :
    ∃ m rest', st'.candidates = m :: rest' ∧ Readied b st.seen name m := by
  have hpool := releaseLoop_appends name _ _ _ hloop
  generalize releaseAppends name (o.iter name (st.rev_deps name))
    { st with seen := name :: st.seen, candidates := rest } = R at hpool
  have hnd : (R.reverse ++ rest).Nodup := hpool ▸ he.cands_nodup
  have hdR : d ∈ R.reverse := by
    have hmem : d ∈ R.reverse ++ rest := hpool ▸ (he.mem_cands d).2 (.inl hd)
    refine (List.mem_append.1 hmem).resolve_right fun hr => ?_
    exact (h.pending_of_dependent hc hd.1 hd.2.1).2 (by simp [hc, hr])
  obtain ⟨m, R', hR⟩ := List.exists_cons_of_ne_nil (List.ne_nil_of_mem hdR)
  have hm : m ∈ st'.candidates := by rw [hpool, hR]; exact List.mem_cons_self _ _
  refine ⟨m, R' ++ rest, by rw [hpool, hR, List.cons_append], ?_⟩
  refine ((he.mem_cands m).1 hm).resolve_right fun hr => ?_
  exact (List.nodup_append.1 hnd).2.2 (by rw [hR]; exact List.mem_cons_self _ _) hr

/-- With as many names seen as registered, every registered name is seen. -/
theorem Kahn.all_seen (h : Kahn b st) (hlen : b.keys.length ≤ st.seen.length) {n : String}
    (hn : n ∈ b.keys) : n ∈ st.seen :=
  ((List.subperm_of_subset h.seen_nodup h.seen_keys).perm_of_length_le hlen).mem_iff.2 hn

/-- The second loop with enough iterations left goes depth first: when yielding `y` readies a
    dependent of `y`, the next node yielded depends on `y`. -/
theorem emitLoop_depth_first (o : SetOrder) (b : DAGBuilder)
    (hname : ∀ k v, b.get? k = some v → v.name = k) :
    ∀ (fuel : Nat) (st : SortState), Kahn b st → b.keys.length ≤ fuel + st.seen.length →
      ∀ pre y post, (emitLoop o b fuel st).1 = pre ++ y :: post →
        (∃ d ∈ b.keys, y.name ∈ (b.getD d).getAllDependencies ∧
          ∀ x ∈ (b.getD d).getAllDependencies, x ∈ (pre ++ [y]).map DAGNode.name ∨ x ∈ st.seen) →
        ∃ z post', post = z :: post' ∧ y.name ∈ z.getAllDependencies
  | 0, _, _, _, pre, y, post, hys, _ => by simp [emitLoop] at hys
  | fuel + 1, st, h, hlen, pre, y, post, hys, hready => by
    cases hc : st.candidates with
    | nil => rw [emitLoop_nil o b fuel hc] at hys; simp at hys
    | cons name rest =>
      obtain ⟨st', hloop, he⟩ := h.emitted o hc
      have h' := h.of_emitted hc he
      have hn : (b.getD name).name = name :=
        (getD_name_of_names hname (h.cands_keys name (by simp [hc]))).2
      rw [emitLoop_succ_of_releaseLoop o h hc hloop fuel] at hys
      obtain ⟨d, hd, hdep, hall⟩ := hready
      cases pre with
      | nil =>
        -- `y` is the node of `name`: the emission readied `d`
        obtain ⟨rfl, hpost⟩ := List.cons.inj hys
        rw [hn] at hdep ⊢
        obtain ⟨m, rest', hc', hm⟩ := h.next_readied o hc hloop he
          ⟨hd, hdep, fun x hx => by simpa [hn] using hall x hx⟩
        cases fuel with
        | zero =>
          have hs := h'.all_seen (by rw [he.seen, List.length_cons]; omega) hd
          obtain ⟨hds, hdc⟩ := h.pending_of_dependent hc hd hdep
          rw [he.seen, List.mem_cons] at hs
          exact absurd (hs.resolve_right hds) fun e => hdc (by simp [hc, e])
        | succ fuel =>
          obtain ⟨_, -, -, heq⟩ := h'.emit o hc' fuel
          exact ⟨_, _, by rw [← hpost, heq], hm.2.1⟩
      | cons p pre =>
        -- `p` is the node of `name`, now seen
        obtain ⟨rfl, htail⟩ := List.cons.inj hys
        refine emitLoop_depth_first o b hname fuel st' h' (by rw [he.seen, List.length_cons]; omega)
          pre y post htail ⟨d, hd, hdep, fun x hx => ?_⟩
        simpa [he.seen, hn, or_assoc, or_left_comm] using hall x hx

/-- For a registry whose keys name their nodes, in every iteration order of its sets: whenever
    yielding a node `y` leaves a registered dependent of `y` with all its dependencies yielded,
    the sort does not stop there, and the next node it yields depends on `y`. -/
theorem topological_sorting_depth_first (o : SetOrder) (b : DAGBuilder)
    (hname : ∀ k v, b.get? k = some v → v.name = k) (pre post : List DAGNode) (y : DAGNode)
    (hys : (topologicalSorting o b).1 = pre ++ y :: post)
    (hready : ∃ d ∈ b.keys, y.name ∈ (b.getD d).getAllDependencies ∧
      ∀ x ∈ (b.getD d).getAllDependencies, x ∈ (pre ++ [y]).map DAGNode.name) :
    ∃ z post', post = z :: post' ∧ y.name ∈ z.getAllDependencies := by
  obtain ⟨st, hinit, h, hseen⟩ := initLoop_ok b hname
  simp only [topologicalSorting, hinit] at hys
  obtain ⟨d, hd, hdep, hall⟩ := hready
  exact emitLoop_depth_first o b hname _ st h (by simp [hseen, keys]) pre y post hys
    ⟨d, hd, hdep, fun x hx => .inl (hall x hx)⟩

/-- The registry `parse_tokens` builds from `b` and `c` both parented to `a`. -/
def twoDependents : DAGBuilder :=
  Recorder.after (parseTokens [.parent "b" "a", .parent "c" "a"] .empty)

/-- There yielding `a` readies `b`, and the sort goes on with `c`, the other dependent of `a`,
    popped before `b`. -/
theorem topological_sorting_depth_first_abc :
    (∀ k v, twoDependents.get? k = some v → v.name = k) ∧
    (topologicalSorting .insertion twoDependents).1 =
      [] ++ twoDependents.getD "a" :: [twoDependents.getD "c", twoDependents.getD "b"] ∧
    (∃ d ∈ twoDependents.keys,
      (twoDependents.getD "a").name ∈ (twoDependents.getD d).getAllDependencies ∧
        ∀ x ∈ (twoDependents.getD d).getAllDependencies,
          x ∈ ([] ++ [twoDependents.getD "a"]).map DAGNode.name) ∧
    ∃ z post', [twoDependents.getD "c", twoDependents.getD "b"] = z :: post' ∧
      (twoDependents.getD "a").name ∈ z.getAllDependencies :=
  have hname := Reachable.names_match ⟨[.parent "b" "a", .parent "c" "a"], rfl⟩
  have hready : ∃ d ∈ twoDependents.keys,
      (twoDependents.getD "a").name ∈ (twoDependents.getD d).getAllDependencies ∧
        ∀ x ∈ (twoDependents.getD d).getAllDependencies,
          x ∈ ([] ++ [twoDependents.getD "a"]).map DAGNode.name := by decide
  ⟨hname, rfl, hready, topological_sorting_depth_first .insertion _ hname [] _ _ rfl hready⟩

/-! ### The first node -/

/-- The names the first loop appends are those of the nodes with no dependency, in insertion
    order. -/
theorem initAppends_eq : ∀ (es : List (String × DAGNode)) (st st' : SortState),
    initLoop es st = .ok st' →
      initAppends es st = (es.filter fun e => e.2.getAllDependencies.isEmpty).map Prod.fst
  | [], _, _, _ => rfl
  | (name, node) :: es, st, st', h => by
    rw [initLoop_cons] at h
    cases h₁ : initStep st name node with
    | error e => rw [h₁] at h; cases h
    | ok st₁ =>
      rw [h₁] at h
      rw [initAppends, h₁]
      simp only [initAppends_eq es st₁ st' h, List.filter_cons, List.length_eq_zero,
        List.dedup_eq_nil, List.isEmpty_iff]
      split <;> rfl

/-- For a registry whose keys name their nodes, in every iteration order of its sets: the first
    node the sort yields is the last registered node with no dependency, and with no such node
    it yields nothing. -/
theorem topological_sorting_first_yield (o : SetOrder) (b : DAGBuilder)
    (hname : ∀ k v, b.get? k = some v → v.name = k) :
    (topologicalSorting o b).1.head? =
      ((b.nodes.filter fun e => e.2.getAllDependencies.isEmpty).getLast?).map Prod.snd := by
  obtain ⟨st, hinit, h, -⟩ := initLoop_ok b hname
  have hpool := initLoop_appends b.nodes .empty st hinit
  rw [initAppends_eq b.nodes .empty st hinit] at hpool
  simp only [topologicalSorting, hinit]
  rcases List.eq_nil_or_concat (b.nodes.filter fun e => e.2.getAllDependencies.isEmpty) with
    hF | ⟨F, e, hF⟩
  · rw [hF] at hpool ⊢
    cases b.nodes.length with
    | zero => rfl
    | succ n => rw [emitLoop_nil o b n (by simpa using hpool)]; rfl
  · rw [List.concat_eq_append] at hF
    rw [hF] at hpool ⊢
    have he : e ∈ b.nodes := List.mem_of_mem_filter
      (by rw [hF]; simp : e ∈ b.nodes.filter fun e => e.2.getAllDependencies.isEmpty)
    obtain ⟨n, hn⟩ : ∃ n, b.nodes.length = n + 1 :=
      Nat.exists_eq_succ_of_ne_zero (List.length_pos_of_mem he).ne'
    obtain ⟨_, -, -, heq⟩ := h.emit o (by simpa using hpool) n
    rw [hn, heq, getD_of_get? (mem_nodes.1 he)]
    simp

/-- `c` parented to `a`, then `d` ordered after `b`: `a` and `b` have no dependency, and `b` is
    registered after `a`. -/
theorem topological_sorting_first_yield_ab :
    (∀ k v, (Recorder.after (parseTokens [.parent "c" "a", .orderBefore "d" "b"] .empty)).get? k =
        some v → v.name = k) ∧
    (topologicalSorting .insertion
        (Recorder.after (parseTokens [.parent "c" "a", .orderBefore "d" "b"] .empty))).1.head? =
      (((Recorder.after (parseTokens [.parent "c" "a", .orderBefore "d" "b"] .empty)).nodes.filter
        fun e => e.2.getAllDependencies.isEmpty).getLast?).map Prod.snd :=
  have hname := Reachable.names_match ⟨[.parent "c" "a", .orderBefore "d" "b"], rfl⟩
  ⟨hname, topological_sorting_first_yield _ _ hname⟩

/-- There the sort starts with `b`. -/
example : ((topologicalSorting .insertion (Recorder.after
    (parseTokens [.parent "c" "a", .orderBefore "d" "b"] .empty))).1.head?).map DAGNode.name =
      some "b" := rfl

end HathorCore.DagBuilder
