import HathorCore.DagBuilder.TopoSort

/-! # DAG builder: the loop invariant of the sort

The first loop of `topological_sorting` leaves, for a registry whose keys name their nodes, the
state `Kahn` describes: `seen` and the pool are apart, a registered name is seen or pooled
exactly when all its dependencies are seen, every other registered name keeps in `direct_deps`
the set of its unseen dependencies, and `rev_deps[x]` is the set of registered names depending
on `x`. One iteration of the second loop keeps it (`Kahn.emit`), whatever the order in which the
inner loop visits `rev_deps[name]`, and the run lemma `emitLoop_run` follows by induction on the
iterations left: the names emitted come each after its dependencies (`DepsFirst`), and the loop
either runs its `len(_nodes)` iterations or stops on an empty pool. -/

namespace HathorCore.DagBuilder

open DAGBuilder

/-- The state of the second loop between two iterations, over the registry `b`. -/
structure Kahn (b : DAGBuilder) (st : SortState) : Prop where
  seen_nodup : st.seen.Nodup
  seen_keys : ∀ n ∈ st.seen, n ∈ b.keys
  cands_nodup : st.candidates.Nodup
  cands_keys : ∀ n ∈ st.candidates, n ∈ b.keys
  cands_fresh : ∀ n ∈ st.candidates, n ∉ st.seen
  ready : ∀ n ∈ b.keys,
    (n ∈ st.seen ∨ n ∈ st.candidates) ↔ ∀ x ∈ (b.getD n).getAllDependencies, x ∈ st.seen
  pending : ∀ n ∈ b.keys, n ∉ st.seen → n ∉ st.candidates → ∃ deps,
    st.direct_deps n = some deps ∧ deps.Nodup ∧
      ∀ x, x ∈ deps ↔ x ∈ (b.getD n).getAllDependencies ∧ x ∉ st.seen
  rev_nodup : ∀ x, (st.rev_deps x).Nodup
  mem_rev : ∀ x n, n ∈ st.rev_deps x ↔ n ∈ b.keys ∧ x ∈ (b.getD n).getAllDependencies

/-! ### The first loop -/

/-- The locals after the first loop has read the items `pre`. -/
structure InitAfter (pre : List (String × DAGNode)) (st : SortState) : Prop where
  seen : st.seen = []
  direct : ∀ k, st.direct_deps k = (dictGet pre k).map fun v => v.getAllDependencies.dedup
  rev_nodup : ∀ x, (st.rev_deps x).Nodup
  mem_rev : ∀ x n, n ∈ st.rev_deps x ↔ ∃ v, dictGet pre n = some v ∧ x ∈ v.getAllDependencies
  cands_nodup : st.candidates.Nodup
  mem_cands : ∀ n, n ∈ st.candidates ↔ ∃ v, dictGet pre n = some v ∧ v.getAllDependencies = []

theorem dictGet_snoc {β : Type} {d : List (String × β)} {name : String} (v : β)
    (h : dictGet d name = none) (k : String) :
    dictGet (d ++ [(name, v)]) k = if k = name then some v else dictGet d k := by
  rw [dictGet_append]
  by_cases hk : k = name
  · subst hk; simp [h, dictGet]
  · simp [dictGet, hk, Ne.symm hk]

namespace InitAfter

theorem empty : InitAfter [] SortState.empty :=
  ⟨rfl, fun _ => rfl, fun _ => List.nodup_nil, fun _ _ => by simp [SortState.empty, dictGet],
    List.nodup_nil, fun _ => by simp [SortState.empty, dictGet]⟩

/-- One item of the first loop, for a new name that matches its node. -/
theorem step {pre : List (String × DAGNode)} {st : SortState} {name : String} {node : DAGNode}
    (h : InitAfter pre st) (hfresh : name ∉ pre.map Prod.fst) (hn : name = node.name) :
    ∃ st', initStep st name node = .ok st' ∧ InitAfter (pre ++ [(name, node)]) st' := by
  have hnone : dictGet pre name = none := dictGet_eq_none.2 hfresh
  have hd : st.direct_deps name = none := by rw [h.direct, hnone]; rfl
  have hget := dictGet_snoc node hnone
  have rev_old : ∀ x, name ∉ st.rev_deps x := fun x hm => by
    obtain ⟨v, hv, -⟩ := (h.mem_rev x name).1 hm; simp [hnone] at hv
  have cand_old : name ∉ st.candidates := fun hm => by
    obtain ⟨v, hv, -⟩ := (h.mem_cands name).1 hm; simp [hnone] at hv
  refine ⟨_, initStep_ok hn hd, h.seen, fun k => ?_, fun x => ?_, fun x n => ?_, ?_, fun n => ?_⟩
  · show (if k = name then _ else st.direct_deps k) = _
    rw [hget, h.direct k]; split <;> simp
  · show List.Nodup (if x ∈ node.getAllDependencies.dedup then _ else _)
    split
    exacts [nodup_setAdd (h.rev_nodup x) name, h.rev_nodup x]
  · show n ∈ (if x ∈ node.getAllDependencies.dedup then _ else _) ↔ _
    simp only [List.mem_dedup, hget]
    by_cases hk : n = name
    · rw [hk]
      by_cases hx : x ∈ node.getAllDependencies <;>
        simp [hx, rev_old, -DAGNode.mem_getAllDependencies]
    · simp only [if_neg hk]
      split <;> simp [hk, h.mem_rev]
  · show List.Nodup (if node.getAllDependencies.dedup.length = 0 then _ else _)
    split
    exacts [List.nodup_cons.2 ⟨cand_old, h.cands_nodup⟩, h.cands_nodup]
  · show n ∈ (if node.getAllDependencies.dedup.length = 0 then _ else _) ↔ _
    rw [hget]
    simp only [List.length_eq_zero, List.dedup_eq_nil]
    by_cases hk : n = name
    · rw [hk]
      by_cases he : node.getAllDependencies = [] <;> simp [he, cand_old]
    · simp only [if_neg hk]
      split <;> simp [hk, h.mem_cands]

/-- The first loop over items with distinct keys, each naming its node, returns normally. -/
theorem run : ∀ (es pre : List (String × DAGNode)) (st : SortState), InitAfter pre st →
    ((pre ++ es).map Prod.fst).Nodup → (∀ e ∈ es, e.2.name = e.1) →
    ∃ st', initLoop es st = .ok st' ∧ InitAfter (pre ++ es) st'
  | [], pre, st, h, _, _ => ⟨st, rfl, by simpa using h⟩
  | (name, node) :: es, pre, st, h, hnd, hname => by
    have hnd' : ((pre ++ [(name, node)]) ++ es).map Prod.fst |>.Nodup := by simpa using hnd
    have hfresh : name ∉ pre.map Prod.fst := fun hm =>
      (List.nodup_append.1 (List.map_append _ _ _ ▸ hnd)).2.2 hm (List.mem_cons_self _ _)
    obtain ⟨st₁, h₁, hi₁⟩ := h.step hfresh (hname _ (List.mem_cons_self _ _)).symm
    obtain ⟨st', h', hi'⟩ := run es _ st₁ hi₁ hnd' fun e he => hname e (List.mem_cons_of_mem _ he)
    exact ⟨st', by rw [initLoop_cons, h₁]; exact h', by simpa using hi'⟩

end InitAfter

/-- For a registry whose keys name their nodes, the first loop returns normally and leaves the
    invariant, with nothing seen. -/
theorem initLoop_ok (b : DAGBuilder) (hname : ∀ k v, b.get? k = some v → v.name = k) :
    ∃ st, initLoop b.nodes .empty = .ok st ∧ Kahn b st ∧ st.seen = [] := by
  obtain ⟨st, hrun, h⟩ := InitAfter.run b.nodes [] _ InitAfter.empty b.nodup
    fun e he => hname e.1 e.2 (mem_nodes.1 he)
  simp only [List.nil_append] at h
  have node_of : ∀ n ∈ b.keys, b.get? n = some (b.getD n) := fun n hn => by
    obtain ⟨v, hv⟩ := mem_keys.1 hn; rw [hv, getD_of_get? hv]
  have hc : ∀ n, n ∈ st.candidates ↔ n ∈ b.keys ∧ (b.getD n).getAllDependencies = [] :=
    fun n => (h.mem_cands n).trans ⟨fun ⟨v, hv, he⟩ => ⟨mem_keys_of_get? hv, getD_of_get? hv ▸ he⟩,
      fun ⟨hn, he⟩ => ⟨_, node_of n hn, he⟩⟩
  refine ⟨st, hrun, ⟨by simp [h.seen], by simp [h.seen], h.cands_nodup, fun n hn => ((hc n).1 hn).1,
    by simp [h.seen], fun n hn => ?_, fun n hn _ hnc => ?_, h.rev_nodup, fun x n => ?_⟩, h.seen⟩
  · simp [h.seen, hc, hn, List.eq_nil_iff_forall_not_mem]
  · refine ⟨_, by rw [h.direct]; exact congrArg _ (node_of n hn), List.nodup_dedup _,
      fun x => by simp [h.seen]⟩
  · exact (h.mem_rev x n).trans ⟨fun ⟨v, hv, hx⟩ => ⟨mem_keys_of_get? hv, getD_of_get? hv ▸ hx⟩,
      fun ⟨hn, hx⟩ => ⟨_, node_of n hn, hx⟩⟩

/-! ### One iteration of the second loop -/

/-- What one iteration of the second loop leaves, popping `name` from the pool `name :: rest`:
    `name` is seen, the pool gains the dependents of `name` whose dependencies are now all seen,
    the remaining set of every other dependent loses `name`, and nothing else changes. -/
structure Emitted (b : DAGBuilder) (st : SortState) (name : String) (rest : List String)
    (st' : SortState) : Prop where
  seen : st'.seen = name :: st.seen
  rev_deps : st'.rev_deps = st.rev_deps
  cands_nodup : st'.candidates.Nodup
  mem_cands : ∀ n, n ∈ st'.candidates ↔ (n ∈ b.keys ∧ name ∈ (b.getD n).getAllDependencies ∧
    ∀ x ∈ (b.getD n).getAllDependencies, x ∈ name :: st.seen) ∨ n ∈ rest
  direct_dependent : ∀ n ∈ b.keys, name ∈ (b.getD n).getAllDependencies → n ∉ st'.candidates →
    ∀ deps, st.direct_deps n = some deps → st'.direct_deps n = some (deps.erase name)
  direct_other : ∀ n, (n ∈ b.keys → name ∉ (b.getD n).getAllDependencies) →
    st'.direct_deps n = st.direct_deps n

section Emit

variable {b : DAGBuilder} {st st' : SortState} {name : String} {rest : List String}

/-- A dependent of the pooled `name` is neither seen nor pooled. -/
theorem Kahn.pending_of_dependent (h : Kahn b st) (hc : st.candidates = name :: rest) {d : String}
    (hd : d ∈ b.keys) (hdep : name ∈ (b.getD d).getAllDependencies) :
    d ∉ st.seen ∧ d ∉ st.candidates := by
  have hfresh := h.cands_fresh name (by simp [hc])
  exact ⟨fun hm => hfresh ((h.ready d hd).1 (.inl hm) name hdep),
    fun hm => hfresh ((h.ready d hd).1 (.inr hm) name hdep)⟩

/-- The remaining set of a dependent of the pooled `name` empties when `name` leaves it exactly
    when all its dependencies are seen once `name` is. -/
theorem Kahn.releases_iff (h : Kahn b st) (hc : st.candidates = name :: rest) {d : String}
    (hd : d ∈ b.keys) (hdep : name ∈ (b.getD d).getAllDependencies) :
    st.releases name d = true ↔ ∀ x ∈ (b.getD d).getAllDependencies, x ∈ name :: st.seen := by
  obtain ⟨hs, hpc⟩ := h.pending_of_dependent hc hd hdep
  obtain ⟨deps, hdeps, hnd, hmem⟩ := h.pending d hd hs hpc
  simp only [SortState.releases, hdeps, Option.getD_some, decide_eq_true_eq, List.length_eq_zero,
    List.eq_nil_iff_forall_not_mem, hnd.mem_erase_iff, hmem, List.mem_cons]
  exact ⟨fun H x hx => by_contra fun hn => H x ⟨fun e => hn (.inl e), hx, fun e => hn (.inr e)⟩,
    fun H x ⟨hxn, hx, hxs⟩ => (H x hx).elim hxn hxs⟩

/-- The inner loop after popping `name` returns normally, and leaves what `Emitted` says. -/
theorem Kahn.emitted (o : SetOrder) (h : Kahn b st) (hc : st.candidates = name :: rest) :
    ∃ st', releaseLoop name (o.iter name (st.rev_deps name))
      { st with seen := name :: st.seen, candidates := rest } = .ok st' ∧
      Emitted b st name rest st' := by
  have hfresh := h.cands_fresh name (by simp [hc])
  have memL : ∀ d, d ∈ o.iter name (st.rev_deps name) ↔
      d ∈ b.keys ∧ name ∈ (b.getD d).getAllDependencies := fun d =>
    (o.perm _ _).mem_iff.trans (h.mem_rev name d)
  have hLnd := (o.perm name _).nodup_iff.2 (h.rev_nodup name)
  obtain ⟨st', hloop, hseen, hrev, hleft, hkept, hcands⟩ :=
    releaseLoop_ok name _ { st with seen := name :: st.seen, candidates := rest } hLnd fun d hd =>
      let ⟨hk, hdep⟩ := (memL d).1 hd
      let ⟨hs, hpc⟩ := h.pending_of_dependent hc hk hdep
      let ⟨deps, hdeps, _, hmem⟩ := h.pending d hk hs hpc
      ⟨deps, hdeps, (hmem name).2 ⟨hdep, hfresh⟩⟩
  have mem_cands : ∀ n, n ∈ st'.candidates ↔ (n ∈ b.keys ∧ name ∈ (b.getD n).getAllDependencies ∧
      ∀ x ∈ (b.getD n).getAllDependencies, x ∈ name :: st.seen) ∨ n ∈ rest := fun n => by
    rw [hcands]
    simp only [List.mem_append, List.mem_reverse, List.mem_filter, memL, and_assoc]
    exact or_congr (and_congr_right fun hk => and_congr_right (h.releases_iff hc hk)) Iff.rfl
  refine ⟨st', hloop, hseen, hrev, ?_, mem_cands, fun n hk hdep hnc deps hdeps => ?_,
    fun n hn => hkept n fun hL => hn ((memL n).1 hL).1 ((memL n).1 hL).2⟩
  · rw [hcands]
    refine List.nodup_append.2 ⟨List.nodup_reverse.2 (hLnd.filter _),
      (List.nodup_cons.1 (hc ▸ h.cands_nodup)).2, fun n hn hn' => ?_⟩
    have hL := (memL n).1 (List.mem_filter.1 (List.mem_reverse.1 hn)).1
    exact (h.pending_of_dependent hc hL.1 hL.2).2 (by simp [hc, hn'])
  · have hrel : st.releases name n = false := Bool.eq_false_iff.2 fun hr =>
      hnc ((mem_cands n).2 (.inl ⟨hk, hdep, (h.releases_iff hc hk hdep).1 hr⟩))
    rw [hleft n ((memL n).2 ⟨hk, hdep⟩) hrel]
    simp [hdeps]

/-- After an emission a registered name is seen or pooled exactly when its dependencies are
    all seen. -/
theorem Kahn.ready_of_emitted (h : Kahn b st) (hc : st.candidates = name :: rest)
    (he : Emitted b st name rest st') (n : String) (hn : n ∈ b.keys) :
    (n ∈ st'.seen ∨ n ∈ st'.candidates) ↔
      ∀ x ∈ (b.getD n).getAllDependencies, x ∈ st'.seen := by
  have hpool : ∀ m, m ∈ st.candidates ↔ m = name ∨ m ∈ rest := by simp [hc]
  have old : n ∈ st.seen ∨ n ∈ st.candidates →
      ∀ x ∈ (b.getD n).getAllDependencies, x ∈ name :: st.seen := fun hr x hx =>
    List.mem_cons_of_mem _ ((h.ready n hn).1 hr x hx)
  rw [he.seen, he.mem_cands, List.mem_cons]
  constructor
  · rintro ((rfl | hs) | ⟨-, -, H⟩ | hr)
    exacts [old (.inr ((hpool n).2 (.inl rfl))), old (.inl hs), H, old (.inr ((hpool n).2 (.inr hr)))]
  · intro H
    by_cases hdep : name ∈ (b.getD n).getAllDependencies
    · exact .inr (.inl ⟨hn, hdep, H⟩)
    · have hold := (h.ready n hn).2 fun x hx =>
        (List.mem_cons.1 (H x hx)).resolve_left fun e => hdep (e ▸ hx)
      rw [hpool] at hold
      rcases hold with hs | rfl | hr
      exacts [.inl (.inr hs), .inl (.inl rfl), .inr (.inr hr)]

/-- After an emission a registered name neither seen nor pooled keeps in `direct_deps` the set of
    its unseen dependencies. -/
theorem Kahn.pending_of_emitted (h : Kahn b st) (hc : st.candidates = name :: rest)
    (he : Emitted b st name rest st') (n : String) (hn : n ∈ b.keys) (hns : n ∉ st'.seen)
    (hnc : n ∉ st'.candidates) : ∃ deps, st'.direct_deps n = some deps ∧ deps.Nodup ∧
      ∀ x, x ∈ deps ↔ x ∈ (b.getD n).getAllDependencies ∧ x ∉ st'.seen := by
  rw [he.seen, List.mem_cons, not_or] at hns
  have hnc' : n ∉ st.candidates := by
    rw [hc, List.mem_cons, not_or]
    exact ⟨hns.1, fun hr => hnc ((he.mem_cands n).2 (.inr hr))⟩
  obtain ⟨deps, hdeps, hnd, hmem⟩ := h.pending n hn hns.2 hnc'
  simp only [he.seen, List.mem_cons, not_or]
  by_cases hdep : name ∈ (b.getD n).getAllDependencies
  · refine ⟨_, he.direct_dependent n hn hdep hnc deps hdeps, hnd.erase name, fun x => ?_⟩
    rw [hnd.mem_erase_iff, hmem]
    exact and_left_comm
  · refine ⟨deps, by rw [he.direct_other n fun _ => hdep, hdeps], hnd, fun x => ?_⟩
    rw [hmem]
    exact ⟨fun ⟨hx, hxs⟩ => ⟨hx, fun e => hdep (e ▸ hx), hxs⟩, fun ⟨hx, _, hxs⟩ => ⟨hx, hxs⟩⟩

/-- An emission keeps the invariant. -/
theorem Kahn.of_emitted (h : Kahn b st) (hc : st.candidates = name :: rest)
    (he : Emitted b st name rest st') : Kahn b st' := by
  have hpool : name ∈ st.candidates := by simp [hc]
  have old_cands : ∀ n ∈ rest, n ∈ st.candidates := fun n hn => by simp [hc, hn]
  refine ⟨by rw [he.seen]; exact List.nodup_cons.2 ⟨h.cands_fresh name hpool, h.seen_nodup⟩,
    fun n hn => ?_, he.cands_nodup, fun n hn => ?_, fun n hn => ?_, h.ready_of_emitted hc he,
    h.pending_of_emitted hc he, by rw [he.rev_deps]; exact h.rev_nodup,
    by rw [he.rev_deps]; exact h.mem_rev⟩
  · rcases List.mem_cons.1 (he.seen ▸ hn) with rfl | hn
    exacts [h.cands_keys _ hpool, h.seen_keys n hn]
  · rcases (he.mem_cands n).1 hn with ⟨hk, -⟩ | hn
    exacts [hk, h.cands_keys n (old_cands n hn)]
  · rw [he.seen, List.mem_cons, not_or]
    rcases (he.mem_cands n).1 hn with ⟨hk, hdep, -⟩ | hn
    · obtain ⟨hs, hpc⟩ := h.pending_of_dependent hc hk hdep
      exact ⟨fun e => hpc (e ▸ hpool), hs⟩
    · exact ⟨fun e => (List.nodup_cons.1 (hc ▸ h.cands_nodup)).1 (e ▸ hn),
        h.cands_fresh n (old_cands n hn)⟩

/-- Popping `name` from the pool `name :: rest`: the emission keeps the invariant and yields
    the node registered under `name`. -/
theorem Kahn.emit (o : SetOrder) (h : Kahn b st) (hc : st.candidates = name :: rest) (fuel : Nat) :
    ∃ st', Kahn b st' ∧ st'.seen = name :: st.seen ∧
      emitLoop o b (fuel + 1) st = (b.getD name :: (emitLoop o b fuel st').1,
        (emitLoop o b fuel st').2) := by
  obtain ⟨st', hloop, he⟩ := h.emitted o hc
  obtain ⟨v, hv⟩ := mem_keys.1 (h.cands_keys name (by simp [hc]))
  refine ⟨st', h.of_emitted hc he, he.seen, ?_⟩
  simp only [emitLoop, hc, if_neg (h.cands_fresh name (by simp [hc]))]
  rw [hloop]
  simp only [hv, getD_of_get? hv]

end Emit

/-! ### The second loop -/

/-- The names `ns`, emitted in this order after the names `done`: each registered, new, and
    after all its dependencies. -/
def DepsFirst (b : DAGBuilder) : List String → List String → Prop
  | _, [] => True
  | done, n :: ns => n ∈ b.keys ∧ n ∉ done ∧
      (∀ x ∈ (b.getD n).getAllDependencies, x ∈ done) ∧ DepsFirst b (n :: done) ns

/-- The run of the second loop from a state keeping the invariant: it yields the nodes of the
    names it emits, each after its dependencies, and either runs all its iterations or stops on
    an empty pool with the logger's `TypeError`. -/
theorem emitLoop_run (o : SetOrder) (b : DAGBuilder) : ∀ (fuel : Nat) (st : SortState), Kahn b st →
    ∃ names stF, Kahn b stF ∧ stF.seen = names.reverse ++ st.seen ∧ DepsFirst b st.seen names ∧
      (emitLoop o b fuel st).1 = names.map b.getD ∧
      ((names.length = fuel ∧ (emitLoop o b fuel st).2 = none) ∨
        (names.length < fuel ∧ stF.candidates = [] ∧
          (emitLoop o b fuel st).2 = some .typeError))
  | 0, st, h => ⟨[], st, h, rfl, trivial, rfl, .inl ⟨rfl, rfl⟩⟩
  | fuel + 1, st, h => by
    cases hc : st.candidates with
    | nil =>
      rw [emitLoop_nil o b fuel hc]
      exact ⟨[], st, h, rfl, trivial, rfl, .inr ⟨Nat.succ_pos _, hc, rfl⟩⟩
    | cons name rest =>
      have hpool : name ∈ st.candidates := by simp [hc]
      obtain ⟨st', h', hseen, heq⟩ := h.emit o hc fuel
      obtain ⟨names, stF, hF, hFseen, hdf, hys, hout⟩ := emitLoop_run o b fuel st' h'
      refine ⟨name :: names, stF, hF, by simp [hFseen, hseen], ⟨h.cands_keys name hpool,
        h.cands_fresh name hpool, (h.ready name (h.cands_keys name hpool)).1 (.inr hpool),
        hseen ▸ hdf⟩, by rw [heq, hys]; rfl, ?_⟩
      rw [heq]
      rcases hout with ⟨hl, he⟩ | ⟨hl, hcF, he⟩
      · exact .inl ⟨by simp [hl], he⟩
      · exact .inr ⟨by simp only [List.length_cons]; omega, hcF, he⟩

/-- The whole sort, for a registry whose keys name their nodes: the nodes yielded are those of
    the names emitted, each after its dependencies, and the sort either yields `len(_nodes)`
    nodes and finishes or stops on an empty pool with the logger's `TypeError`. -/
theorem topologicalSorting_run (o : SetOrder) (b : DAGBuilder)
    (hname : ∀ k v, b.get? k = some v → v.name = k) :
    ∃ names stF, Kahn b stF ∧ stF.seen = names.reverse ∧ DepsFirst b [] names ∧
      (topologicalSorting o b).1 = names.map b.getD ∧
      ((names.length = b.keys.length ∧ (topologicalSorting o b).2 = none) ∨
        (names.length < b.keys.length ∧ stF.candidates = [] ∧
          (topologicalSorting o b).2 = some .typeError)) := by
  obtain ⟨st, hinit, h, hseen⟩ := initLoop_ok b hname
  obtain ⟨names, stF, hF, hFseen, hdf, hys, hout⟩ := emitLoop_run o b b.nodes.length st h
  rw [hseen, List.append_nil] at hFseen
  rw [hseen] at hdf
  simp only [topologicalSorting, hinit]
  exact ⟨names, stF, hF, hFseen, hdf, hys, by simpa [keys] using hout⟩

end HathorCore.DagBuilder
