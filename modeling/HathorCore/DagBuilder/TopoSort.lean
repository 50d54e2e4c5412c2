import HathorCore.DagBuilder.Recorder

/-! # DAG builder: the topological sort

`DAGBuilder.topological_sorting` (`builder.py`, lines 166–200) is Kahn's algorithm over the
registry. A first loop builds, for every registered name, its remaining dependency set
`direct_deps[name]`, the reverse map `rev_deps` and the pool `candidates` of the names with no
dependency. A second loop, run `len(_nodes)` times, pops a candidate, adds it to `seen`, removes
it from the remaining set of each of its dependents, releasing to the pool those whose set
becomes empty, and yields its node. On an empty pool the loop means to log the state and raise
`RuntimeError('there is at least one cycle')`, but the log call is `self.log(...)`, and
`self.log = logger.new()` is a structlog bound logger, which is not callable: the call raises
`TypeError`, so the `RuntimeError` and the report of the state are never reached.

The sort is a generator: the model returns the nodes it yields, in order, and the exception that
ends it, if any. A consumer that stops early sees a prefix of that list.

Python iterates a `set[str]` in an order fixed by the per-process string hash. The sort lets the
iteration order of `rev_deps[name]` decide the order of the pool, so the model takes that order
as a parameter, `SetOrder`; every other set the sort builds is only tested for membership, size
and removal. -/

namespace HathorCore.DagBuilder

/-- An iteration order of the sets `rev_deps[name]`: `iter name s` lists the set whose items, in
    insertion order, are `s`. Under some hash seed every permutation occurs. -/
structure SetOrder where
  iter : String → List String → List String
  perm : ∀ name s, (iter name s).Perm s

/-- Iteration in insertion order. -/
def SetOrder.insertion : SetOrder := ⟨fun _ s => s, fun _ s => List.Perm.refl s⟩

/-- Iteration in reverse insertion order. -/
def SetOrder.reversed : SetOrder := ⟨fun _ s => s.reverse, fun _ s => List.reverse_perm s⟩

/-- The exceptions `topological_sorting` can raise. -/
inductive SortError where
  /-- `TypeError`, from calling the bound logger `self.log` on an empty pool: its arguments
      are evaluated, then the call fails, so nothing of the state is reported. -/
  | typeError
  /-- A failed `assert`. -/
  | assertionError
  /-- `KeyError(key)`, from a dict lookup or from `set.remove`. -/
  | keyError (key : String)

/-- The locals of `topological_sorting`: the dicts `direct_deps` and `rev_deps` by key, the set
    `seen`, and the list `candidates` with its last item first, so that `append` and `pop` act
    on the head. -/
structure SortState where
  direct_deps : String → Option (List String)
  rev_deps : String → List String
  seen : List String
  candidates : List String

/-- `{}`, `defaultdict(set)`, `set()` and `[]`. -/
def SortState.empty : SortState := ⟨fun _ => none, fun _ => [], [], []⟩

/-! ### The first loop -/

/-- One item `(name, node)` of `self._nodes.items()`: the two assertions, `direct_deps[name] =
    deps`, `rev_deps[x].add(name)` for each `x` in `deps`, and the pool for an empty `deps`. -/
def initStep (st : SortState) (name : String) (node : DAGNode) : Except SortError SortState :=
  if name ≠ node.name then .error .assertionError
  else
    let deps := node.getAllDependencies.dedup
    if (st.direct_deps name).isSome then .error .assertionError
    else .ok
      { st with
        direct_deps := fun k => if k = name then some deps else st.direct_deps k
        rev_deps := fun x => if x ∈ deps then setAdd (st.rev_deps x) name else st.rev_deps x
        candidates := if deps.length = 0 then name :: st.candidates else st.candidates }

/-- The first loop, over the items of `self._nodes` in insertion order. -/
def initLoop : List (String × DAGNode) → SortState → Except SortError SortState
  | [], st => .ok st
  | (name, node) :: rest, st =>
    match initStep st name node with
    | .error e => .error e
    | .ok st => initLoop rest st

/-! ### The second loop -/

/-- One dependent `d` of the emitted `name`: `direct_deps[d].remove(name)`, then, if the set is
    empty, `candidates.append(d)` and `del direct_deps[d]`. -/
def releaseStep (name d : String) (st : SortState) : Except SortError SortState :=
  match st.direct_deps d with
  | none => .error (.keyError d)
  | some deps =>
    if name ∉ deps then .error (.keyError name)
    else
      let deps := deps.erase name
      if deps.length = 0 then
        .ok { st with
          direct_deps := fun k => if k = d then none else st.direct_deps k
          candidates := d :: st.candidates }
      else .ok { st with direct_deps := fun k => if k = d then some deps else st.direct_deps k }

/-- The inner loop `for d in rev_deps[name]`, over the set in its iteration order. -/
def releaseLoop (name : String) : List String → SortState → Except SortError SortState
  | [], st => .ok st
  | d :: ds, st =>
    match releaseStep name d st with
    | .error e => .error e
    | .ok st => releaseLoop name ds st

/-- The second loop with `fuel` of its `range(len(self._nodes))` iterations left: the nodes it
    yields and the exception that ends it, if any. -/
def emitLoop (o : SetOrder) (b : DAGBuilder) : Nat → SortState → List DAGNode × Option SortError
  | 0, _ => ([], none)
  | fuel + 1, st =>
    match st.candidates with
    | [] => ([], some .typeError)
    | name :: rest =>
      if name ∈ st.seen then ([], some .assertionError)
      else
        let st := { st with seen := name :: st.seen, candidates := rest }
        match releaseLoop name (o.iter name (st.rev_deps name)) st with
        | .error e => ([], some e)
        | .ok st =>
          match b.get? name with
          | none => ([], some (.keyError name))
          | some node =>
            let r := emitLoop o b fuel st
            (node :: r.1, r.2)

/-- `DAGBuilder.topological_sorting`: the nodes it yields, in order, and the exception that ends
    it, if any. The first loop runs before the first node is yielded. -/
def topologicalSorting (o : SetOrder) (b : DAGBuilder) : List DAGNode × Option SortError :=
  match initLoop b.nodes .empty with
  | .error e => ([], some e)
  | .ok st => emitLoop o b b.nodes.length st

/-! ### One spec lemma per loop body -/

theorem initLoop_cons (name : String) (node : DAGNode) (rest : List (String × DAGNode))
    (st : SortState) : initLoop ((name, node) :: rest) st =
      match initStep st name node with
      | .error e => .error e
      | .ok st => initLoop rest st := rfl

/-- The first loop's item for a name matching its node and not seen before. -/
theorem initStep_ok {st : SortState} {name : String} {node : DAGNode} (hn : name = node.name)
    (hd : st.direct_deps name = none) :
    initStep st name node = .ok
      { st with
        direct_deps := fun k => if k = name then some node.getAllDependencies.dedup
          else st.direct_deps k
        rev_deps := fun x => if x ∈ node.getAllDependencies.dedup then setAdd (st.rev_deps x) name
          else st.rev_deps x
        candidates := if node.getAllDependencies.dedup.length = 0 then name :: st.candidates
          else st.candidates } := by
  subst hn; simp [initStep, hd]

/-- Whether `direct_deps[d]` is empty once `name` is removed from it. -/
def SortState.releases (st : SortState) (name d : String) : Bool :=
  (((st.direct_deps d).getD []).erase name).length = 0

/-- The locals after `direct_deps[d] = deps` loses `name`, as `releaseStep` leaves them. -/
def SortState.release (st : SortState) (name d : String) (deps : List String) : SortState :=
  { st with
    direct_deps := fun k => if k = d then (if st.releases name d then none
      else some (deps.erase name)) else st.direct_deps k
    candidates := if st.releases name d then d :: st.candidates else st.candidates }

@[simp] theorem SortState.release_seen (st : SortState) (name d : String) (deps : List String) :
    (st.release name d deps).seen = st.seen := rfl

@[simp] theorem SortState.release_rev_deps (st : SortState) (name d : String) (deps : List String) :
    (st.release name d deps).rev_deps = st.rev_deps := rfl

theorem SortState.release_direct_deps_ne {st : SortState} {name d k : String} (deps : List String)
    (hk : k ≠ d) : (st.release name d deps).direct_deps k = st.direct_deps k := by
  simp [release, hk]

theorem SortState.releases_release_ne {st : SortState} {name d k : String} (deps : List String)
    (hk : k ≠ d) : (st.release name d deps).releases name k = st.releases name k := by
  simp [releases, release_direct_deps_ne deps hk]

/-- Removing the emitted `name` from a remaining set that holds it. -/
theorem releaseStep_ok {name d : String} {st : SortState} {deps : List String}
    (hd : st.direct_deps d = some deps) (hn : name ∈ deps) :
    releaseStep name d st = .ok (st.release name d deps) := by
  unfold releaseStep SortState.release SortState.releases
  simp only [hd, hn, not_true_eq_false, if_false, Option.getD_some]
  split <;> simp_all

/-- The inner loop over distinct dependents whose remaining sets all hold `name` returns
    normally: it removes `name` from each of those sets, drops the emptied ones and pools their
    names, in the order visited. -/
theorem releaseLoop_ok (name : String) : ∀ (L : List String) (st : SortState), L.Nodup →
    (∀ d ∈ L, ∃ deps, st.direct_deps d = some deps ∧ name ∈ deps) →
    ∃ st', releaseLoop name L st = .ok st' ∧ st'.seen = st.seen ∧ st'.rev_deps = st.rev_deps ∧
      (∀ d ∈ L, st.releases name d = false →
        st'.direct_deps d = some (((st.direct_deps d).getD []).erase name)) ∧
      (∀ k ∉ L, st'.direct_deps k = st.direct_deps k) ∧
      st'.candidates = (L.filter (st.releases name)).reverse ++ st.candidates
  | [], st, _, _ => ⟨st, rfl, rfl, rfl, by simp, fun _ _ => rfl, rfl⟩
  | d :: ds, st, hnd, hpre => by
    obtain ⟨deps, hd, hn⟩ := hpre d (List.mem_cons_self _ _)
    have hdds : d ∉ ds := (List.nodup_cons.1 hnd).1
    have other : ∀ k ∈ ds, k ≠ d := fun k hk hkd => hdds (hkd ▸ hk)
    obtain ⟨st', hloop, hseen, hrev, hleft, hkept, hcands⟩ :=
      releaseLoop_ok name ds (st.release name d deps) (List.nodup_cons.1 hnd).2 fun k hk => by
        rw [SortState.release_direct_deps_ne deps (other k hk)]
        exact hpre k (List.mem_cons_of_mem _ hk)
    refine ⟨st', by simp only [releaseLoop, releaseStep_ok hd hn]; exact hloop, hseen, hrev,
      fun k hk hk' => ?_, fun k hk => ?_, ?_⟩
    · rcases List.mem_cons.1 hk with rfl | hk
      · rw [hkept k hdds]; simp [SortState.release, hk', hd]
      · rw [hleft k hk (by rwa [SortState.releases_release_ne deps (other k hk)]),
          SortState.release_direct_deps_ne deps (other k hk)]
    · rw [hkept k fun h => hk (List.mem_cons_of_mem _ h),
        SortState.release_direct_deps_ne deps fun h => hk (by subst h; exact List.mem_cons_self _ _)]
    · rw [hcands, List.filter_congr fun k hk => SortState.releases_release_ne deps (other k hk),
        List.filter_cons]
      split <;> simp_all [SortState.release]

theorem emitLoop_nil (o : SetOrder) (b : DAGBuilder) (fuel : Nat) {st : SortState}
    (hc : st.candidates = []) : emitLoop o b (fuel + 1) st = ([], some .typeError) := by
  simp [emitLoop, hc]

/-! ### The order of the pool -/

/-- Two dependents released by one emission come out in the reverse of the order in which
    `rev_deps` is iterated: with `b` and `c` both parented to `a`, insertion order yields
    `a, c, b` and the reverse order yields `a, b, c`. -/
theorem sort_order_depends_on_set_order :
    Reachable (Recorder.after (parseTokens [.parent "b" "a", .parent "c" "a"] .empty)) ∧
    (topologicalSorting .insertion
        (Recorder.after (parseTokens [.parent "b" "a", .parent "c" "a"] .empty))).1.map
      DAGNode.name = ["a", "c", "b"] ∧
    (topologicalSorting .reversed
        (Recorder.after (parseTokens [.parent "b" "a", .parent "c" "a"] .empty))).1.map
      DAGNode.name = ["a", "b", "c"] :=
  ⟨⟨[.parent "b" "a", .parent "c" "a"], rfl⟩, rfl, rfl⟩

end HathorCore.DagBuilder
