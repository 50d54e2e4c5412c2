import HathorCore.DagBuilder.Ordering

/-! # DAG builder: the pool during the sort

`topological_sorting` appends a name to `candidates` in two places: the first loop appends each
name with no dependency, and the inner loop of the second appends a dependent `d` when
`direct_deps[d]` empties, deleting the entry in the same branch. It pops with an assertion that
the name is not seen, and each removal `direct_deps[d].remove(name)` raises `KeyError` when the
entry is gone or does not hold `name`.

`sortAppends` lists the names the sort appends, in order. Every append puts a name at the head of
the model's pool, so each loop's pool is its appends, last first, in front of the pool it started
with (`initLoop_appends`, `releaseLoop_appends`). Against the invariant `Kahn`, whose pool is
apart from `seen` and has no duplicates, no name is appended twice, and the sort ends normally or
with the cycle error, never with the assertion or a `KeyError`. -/

namespace HathorCore.DagBuilder

open DAGBuilder

/-! ### The names appended -/

/-- The names the first loop passes to `candidates.append`, up to its first exception. -/
def initAppends : List (String × DAGNode) → SortState → List String
  | [], _ => []
  | (name, node) :: rest, st =>
    match initStep st name node with
    | .error _ => []
    | .ok st' =>
      (if node.getAllDependencies.dedup.length = 0 then [name] else []) ++ initAppends rest st'

/-- The names the inner loop `for d in rev_deps[name]` passes to `candidates.append`, up to its
    first exception. -/
def releaseAppends (name : String) : List String → SortState → List String
  | [], _ => []
  | d :: ds, st =>
    match releaseStep name d st with
    | .error _ => []
    | .ok st' => (if st.releases name d then [d] else []) ++ releaseAppends name ds st'

/-- The names the second loop passes to `candidates.append`, with `fuel` iterations left. -/
def emitAppends (o : SetOrder) (b : DAGBuilder) : Nat → SortState → List String
  | 0, _ => []
  | fuel + 1, st =>
    match st.candidates with
    | [] => []
    | name :: rest =>
      if name ∈ st.seen then []
      else
        let st := { st with seen := name :: st.seen, candidates := rest }
        releaseAppends name (o.iter name (st.rev_deps name)) st ++
          match releaseLoop name (o.iter name (st.rev_deps name)) st with
          | .error _ => []
          | .ok st =>
            match b.get? name with
            | none => []
            | some _ => emitAppends o b fuel st

/-- Every name `topological_sorting` passes to `candidates.append`, in order, for a consumer that
    reads it to the end; one that stops early sees a prefix. -/
def sortAppends (o : SetOrder) (b : DAGBuilder) : List String :=
  initAppends b.nodes .empty ++
    match initLoop b.nodes .empty with
    | .error _ => []
    | .ok st => emitAppends o b b.nodes.length st

/-! ### Appends are pushes onto the pool -/

theorem initStep_candidates {st st' : SortState} {name : String} {node : DAGNode}
    (h : initStep st name node = .ok st') :
    st'.candidates =
      (if node.getAllDependencies.dedup.length = 0 then [name] else []) ++ st.candidates := by
  unfold initStep at h
  split at h
  · cases h
  · split at h
    · cases h
    · cases h; split <;> rfl

theorem releaseStep_candidates {st st' : SortState} {name d : String}
    (h : releaseStep name d st = .ok st') :
    st'.candidates = (if st.releases name d then [d] else []) ++ st.candidates := by
  unfold releaseStep at h
  split at h
  · cases h
  · rename_i deps hd
    rw [SortState.releases, hd, Option.getD_some]
    split at h
    · cases h
    · dsimp only at h
      split at h <;> cases h <;> simp [*]

/-- The first loop's pool is its appends, last first, in front of the pool it started with. -/
theorem initLoop_appends : ∀ (es : List (String × DAGNode)) (st st' : SortState),
    initLoop es st = .ok st' → st'.candidates = (initAppends es st).reverse ++ st.candidates
  | [], _, _, h => by cases h; rfl
  | (name, node) :: es, st, st', h => by
    rw [initLoop_cons] at h
    cases h₁ : initStep st name node with
    | error e => rw [h₁] at h; cases h
    | ok st₁ =>
      rw [h₁] at h
      simp only [initLoop_appends es st₁ st' h, initAppends, h₁, initStep_candidates h₁,
        List.reverse_append, List.append_assoc]
      split <;> rfl

/-- The inner loop's pool is its appends, last first, in front of the pool it started with. -/
theorem releaseLoop_appends (name : String) : ∀ (L : List String) (st st' : SortState),
    releaseLoop name L st = .ok st' → st'.candidates = (releaseAppends name L st).reverse ++ st.candidates
  | [], _, _, h => by cases h; rfl
  | d :: ds, st, st', h => by
    simp only [releaseLoop] at h
    cases h₁ : releaseStep name d st with
    | error e => rw [h₁] at h; cases h
    | ok st₁ =>
      rw [h₁] at h
      simp only [releaseLoop_appends name ds st₁ st' h, releaseAppends, h₁,
        releaseStep_candidates h₁, List.reverse_append, List.append_assoc]
      split <;> rfl

/-! ### No name appended twice -/

/-- From a state keeping the invariant, the second loop appends no name twice, and none that is
    seen or pooled when it starts. -/
theorem emitAppends_fresh (o : SetOrder) (b : DAGBuilder) : ∀ (fuel : Nat) (st : SortState),
    Kahn b st → (emitAppends o b fuel st).Nodup ∧
      ∀ n ∈ emitAppends o b fuel st, n ∉ st.seen ∧ n ∉ st.candidates
  | 0, _, _ => ⟨List.nodup_nil, fun _ h => absurd h (List.not_mem_nil _)⟩
  | fuel + 1, st, h => by
    cases hc : st.candidates with
    | nil => simp [emitAppends, hc]
    | cons name rest =>
      obtain ⟨st', hloop, he⟩ := h.emitted o hc
      have h' := h.of_emitted hc he
      have hfresh := h.cands_fresh name (by simp [hc])
      obtain ⟨v, hv⟩ := mem_keys.1 (h.cands_keys name (by simp [hc]))
      have hpool := releaseLoop_appends name _ _ _ hloop
      have heq : emitAppends o b (fuel + 1) st = releaseAppends name (o.iter name (st.rev_deps name))
          { st with seen := name :: st.seen, candidates := rest } ++ emitAppends o b fuel st' := by
        simp only [emitAppends, hc, if_neg hfresh, hloop, hv]
      generalize releaseAppends name (o.iter name (st.rev_deps name))
          { st with seen := name :: st.seen, candidates := rest } = R at hpool heq
      rw [heq]
      obtain ⟨hnd, hnew⟩ := emitAppends_fresh o b fuel st' h'
      -- the pool after the iteration holds the names appended in it, in front of `rest`
      have hnd' : (R.reverse ++ rest).Nodup := hpool ▸ h'.cands_nodup
      have pooled : ∀ n ∈ R, n ∈ st'.candidates := fun n hn => by rw [hpool]; simp [hn]
      have unseen : ∀ n ∈ st'.candidates, ¬ n = name ∧ n ∉ st.seen := fun n hn => by
        simpa [he.seen] using h'.cands_fresh n hn
      refine ⟨List.nodup_append.2 ⟨List.nodup_reverse.1 (List.nodup_append.1 hnd').1, hnd,
        fun n h1 h2 => (hnew n h2).2 (pooled n h1)⟩, fun n hn => ?_⟩
      rw [List.mem_cons, not_or]
      rcases List.mem_append.1 hn with hn | hn
      · obtain ⟨hne, hs⟩ := unseen n (pooled n hn)
        exact ⟨hs, hne, fun hr => (List.nodup_append.1 hnd').2.2 (List.mem_reverse.2 hn) hr⟩
      · obtain ⟨hs', hc'⟩ := hnew n hn
        rw [he.seen, List.mem_cons, not_or] at hs'
        exact ⟨hs'.2, hs'.1, fun hr => hc' (by rw [hpool]; simp [hr])⟩

/-- For a registry whose keys name their nodes, in every iteration order of its sets: no name is
    appended to `candidates` twice, and the sort never fails its assertion and never raises
    `KeyError`, so every removal from `direct_deps[d]` finds the entry present and holding the
    popped name, and no entry is deleted twice. -/
theorem topological_sorting_appends_once (o : SetOrder) (b : DAGBuilder)
    (hname : ∀ k v, b.get? k = some v → v.name = k) :
    (sortAppends o b).Nodup ∧ (topologicalSorting o b).2 ≠ some .assertionError ∧
      ∀ k, (topologicalSorting o b).2 ≠ some (.keyError k) := by
  obtain ⟨st, hinit, h, -⟩ := initLoop_ok b hname
  have hpool := initLoop_appends b.nodes .empty st hinit
  obtain ⟨hnd, hnew⟩ := emitAppends_fresh o b b.nodes.length st h
  have hend : (topologicalSorting o b).2 = none ∨ (topologicalSorting o b).2 = some .typeError := by
    obtain ⟨_, _, -, -, -, -, hout⟩ := topologicalSorting_run o b hname
    rcases hout with ⟨-, he⟩ | ⟨-, -, he⟩
    exacts [.inl he, .inr he]
  refine ⟨?_, by rcases hend with he | he <;> simp [he]⟩
  have hinitNd : (initAppends b.nodes .empty).Nodup := by
    have := h.cands_nodup
    rw [hpool] at this
    exact List.nodup_reverse.1 (List.nodup_append.1 this).1
  rw [sortAppends, hinit]
  exact List.nodup_append.2 ⟨hinitNd, hnd, fun n h1 h2 =>
    (hnew n h2).2 (by rw [hpool]; simp [h1])⟩

/-- The registry where `b` and `c` are both parented to `a`: emitting `a` releases both. -/
theorem topological_sorting_appends_once_abc :
    (∀ k v, (Recorder.after (parseTokens [.parent "b" "a", .parent "c" "a"] .empty)).get? k =
        some v → v.name = k) ∧
    ((sortAppends .insertion
        (Recorder.after (parseTokens [.parent "b" "a", .parent "c" "a"] .empty))).Nodup ∧
      (topologicalSorting .insertion
          (Recorder.after (parseTokens [.parent "b" "a", .parent "c" "a"] .empty))).2 ≠
        some .assertionError ∧
      ∀ k, (topologicalSorting .insertion
          (Recorder.after (parseTokens [.parent "b" "a", .parent "c" "a"] .empty))).2 ≠
        some (.keyError k)) :=
  ⟨Reachable.names_match ⟨[.parent "b" "a", .parent "c" "a"], rfl⟩,
    topological_sorting_appends_once _ _
      (Reachable.names_match ⟨[.parent "b" "a", .parent "c" "a"], rfl⟩)⟩

/-- There `a` is appended by the first loop, then `b` and `c` when `a` is emitted. -/
example : sortAppends .insertion
    (Recorder.after (parseTokens [.parent "b" "a", .parent "c" "a"] .empty)) = ["a", "b", "c"] :=
  rfl

end HathorCore.DagBuilder
