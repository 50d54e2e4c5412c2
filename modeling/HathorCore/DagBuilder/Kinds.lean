import HathorCore.DagBuilder.Recorder

/-! # DAG builder: node kinds

`_get_or_create_node` resolves an `Unknown` node to the kind it is asked for and asserts that a
concrete kind equals a concrete request. Every recorder call that resolves kinds through it keeps
each concrete kind, and raises the kind mismatch only on a real conflict. `add_attribute` with the
key `type` is the exception: it assigns `node.type = DAGNodeType(value)` directly, so a resolved
kind can be overwritten, or reset to `Unknown`, without any error. -/

namespace HathorCore.DagBuilder

open DAGBuilder

/-- Every node of `b` with a concrete kind is registered in `b'` with the same kind. -/
def KindsKept (b b' : DAGBuilder) : Prop :=
  ∀ k v, b.get? k = some v → v.type ≠ .Unknown → ∃ v', b'.get? k = some v' ∧ v'.type = v.type

namespace KindsKept

variable {b b' b'' : DAGBuilder} {k : String}

theorem refl (b : DAGBuilder) : KindsKept b b := fun _ v hv _ => ⟨v, hv, rfl⟩

theorem trans (h : KindsKept b b') (h' : KindsKept b' b'') : KindsKept b b'' := by
  intro n v hv hu
  obtain ⟨v', hv', ht⟩ := h n v hv hu
  obtain ⟨v'', hv'', ht'⟩ := h' n v' hv' (ht ▸ hu)
  exact ⟨v'', hv'', ht'.trans ht⟩

theorem ensure (b : DAGBuilder) (k : String) : KindsKept b (b.ensure k) := by
  intro n v hv _
  refine ⟨v, ?_, rfl⟩
  rw [get?_ensure]; split
  · subst n; rw [getD_of_get? hv]
  · exact hv

theorem modifyNode (b : DAGBuilder) (k : String) (f : DAGNode → DAGNode)
    (hf : ∀ n, n.type ≠ .Unknown → (f n).type = n.type) : KindsKept b (b.modifyNode k f) := by
  intro n v hv hu
  rw [get?_modifyNode]; split
  · subst n; rw [hv]; exact ⟨_, rfl, hf v hu⟩
  · exact ⟨v, hv, rfl⟩

theorem resolve (b : DAGBuilder) (k : String) (t : DAGNodeType) : KindsKept b (b.resolve k t) :=
  (ensure b k).trans (modifyNode _ k _ fun n hn => by simp [DAGNode.resolveType, hn])

theorem getOrCreateNode {t : DAGNodeType} {n : DAGNode}
    (h : HathorCore.DagBuilder.getOrCreateNode k t b = .ok n b') : KindsKept b b' := by
  rw [getOrCreateNode_ok h]; exact resolve b k t

theorem addParentEdge {_from _to : String}
    (h : HathorCore.DagBuilder.addParentEdge _from _to b = .ok () b') : KindsKept b b' := by
  rw [addParentEdge_apply] at h; cases h
  exact ((ensure _ _).trans (ensure _ _)).trans (modifyNode _ _ _ fun _ _ => rfl)

theorem addDeps {_from _to : String}
    (h : HathorCore.DagBuilder.addDeps _from _to b = .ok () b') : KindsKept b b' := by
  rw [addDeps_apply] at h; cases h
  exact ((ensure _ _).trans (ensure _ _)).trans (modifyNode _ _ _ fun _ _ => rfl)

theorem addSpendingEdge {_from _to : String} {i : Int}
    (h : HathorCore.DagBuilder.addSpendingEdge _from _to i b = .ok () b') : KindsKept b b' := by
  rw [addSpendingEdge_apply] at h; cases h
  refine (KindsKept.trans ?_ (ensure _ _)).trans (modifyNode _ _ _ fun _ _ => rfl)
  split
  · exact (ensure _ _).trans (modifyNode _ _ _ fun _ _ => rfl)
  · exact ensure _ _

theorem setOutput {name : String} {index amount : Int} {token : String}
    {attrs : List (String × String)}
    (h : HathorCore.DagBuilder.setOutput name index amount token attrs b = .ok () b') :
    KindsKept b b' := by
  obtain ⟨outputs, -, rfl, -⟩ := setOutput_ok b h
  have written := (ensure b name).trans
    (modifyNode (b.ensure name) name (fun n => { n with outputs := outputs }) fun _ _ => rfl)
  split
  · exact written
  · exact (written.trans (resolve _ _ _)).trans (modifyNode _ _ _ fun _ _ => rfl)

theorem addBlockchainLoop {pfx : String} {prev : Option String} {i : Int} {count : Nat}
    (h : HathorCore.DagBuilder.addBlockchainLoop pfx prev i count b = .ok () b') : KindsKept b b' :=
  addBlockchainLoop_induction (KindsKept b) (fun _ _ _ _ hb hr => hb.trans (getOrCreateNode hr))
    (fun _ _ _ _ hb hr => hb.trans (addParentEdge hr)) pfx _ _ _ _ _ (refl b) h

/-- A kept concrete kind, read through `getD`. -/
theorem getD (h : KindsKept b b') (hk : k ∈ b.keys) (hu : (b.getD k).type ≠ .Unknown) :
    k ∈ b'.keys ∧ (b'.getD k).type = (b.getD k).type := by
  obtain ⟨v, hv⟩ := mem_keys.1 hk
  rw [getD_of_get? hv] at hu ⊢
  obtain ⟨v', hv', ht⟩ := h k v hv hu
  exact ⟨mem_keys_of_get? hv', by rw [getD_of_get? hv', ht]⟩

end KindsKept

/-- Every recorder call other than `add_attribute` with the key `type` keeps each concrete kind
    when it returns normally. -/
theorem kinds_kept_of_apply {b b' : DAGBuilder} :
    ∀ {t : Token}, (∀ name value, t ≠ .attribute name "type" value) →
      t.apply b = .ok () b' → KindsKept b b'
  | .parent .., _, h => KindsKept.addParentEdge h
  | .spend .., _, h => KindsKept.addSpendingEdge h
  | .attribute name key value, ht, h => by
    rcases addAttribute_ok b h with ⟨rfl, -⟩ | ⟨-, rfl⟩
    · exact absurd rfl (ht name value)
    · exact (KindsKept.ensure _ _).trans (KindsKept.modifyNode _ _ _ fun _ _ => rfl)
  | .orderBefore .., _, h => KindsKept.addDeps h
  | .output .., _, h => KindsKept.setOutput h
  | .blockchain .., _, h => KindsKept.addBlockchainLoop h

/-! ### The kind mismatch is raised only on a conflict -/

/-- The kind-mismatch error names a concrete kind, found on a node of the registry as it was
    when raised, and a different concrete request. -/
def MismatchSound (e : BuilderError) (b : DAGBuilder) : Prop :=
  ∀ cur req, e = .kindMismatch cur req →
    req ≠ .Unknown ∧ cur ≠ .Unknown ∧ cur ≠ req ∧ ∃ k ∈ b.keys, (b.getD k).type = cur

theorem mismatchSound_of_getOrCreateNode {b b' : DAGBuilder} {k : String} {t : DAGNodeType}
    {e : BuilderError} (h : getOrCreateNode k t b = .error e b') : MismatchSound e b' := by
  rw [getOrCreateNode_eq] at h
  split at h
  · cases h; rename_i hc
    intro cur req he; cases he
    refine ⟨hc.1, hc.2.1, hc.2.2, k, ?_, rfl⟩
    by_contra hk
    exact hc.2.1 (by simp [getD, get?_eq_none.2 hk])
  · cases h

theorem mismatchSound_of_addBlockchainLoop (pfx : String) :
    ∀ (count : Nat) (prev : Option String) (i : Int) (b b' : DAGBuilder) (e : BuilderError),
      addBlockchainLoop pfx prev i count b = .error e b' → MismatchSound e b'
  | 0, _, _, _, _, _, h => by cases h
  | count + 1, prev, i, b, b', e, h => by
    rw [addBlockchainLoop_succ] at h
    split at h
    · exact mismatchSound_of_addBlockchainLoop pfx count _ _ _ _ _ h
    · cases h; exact mismatchSound_of_getOrCreateNode ‹_›

/-- A recorder call raises the kind mismatch only for a concrete request that differs from the
    concrete kind of a node at the time of the request. -/
theorem mismatchSound_of_apply {b b' : DAGBuilder} {e : BuilderError} :
    ∀ {t : Token}, t.apply b = .error e b' → MismatchSound e b'
  | .parent .., h => by rw [Token.apply, addParentEdge_apply] at h; cases h
  | .spend .., h => by rw [Token.apply, addSpendingEdge_apply] at h; cases h
  | .attribute .., h => by
    rw [Token.apply, addAttribute_apply] at h
    split at h
    · split at h
      · cases h; intro _ _ he; cases he
      · cases h
    · cases h
  | .orderBefore .., h => by rw [Token.apply, addDeps_apply] at h; cases h
  | .output name index amount token attrs, h => by
    rw [Token.apply, setOutput_apply] at h
    split at h
    · cases h; intro _ _ he; cases he
    · split at h
      · split at h
        · cases h
        · cases h; exact mismatchSound_of_getOrCreateNode ‹_›
      · cases h
  | .blockchain .., h => mismatchSound_of_addBlockchainLoop _ _ _ _ _ _ _ h

/-! ### Over runs of `parse_tokens` -/

theorem kindsKept_parseTokens : ∀ (tokens : List Token) (b b' : DAGBuilder),
    (∀ t ∈ tokens, ∀ name value, t ≠ .attribute name "type" value) →
      parseTokens tokens b = .ok () b' → KindsKept b b'
  | [], b, _, _, h => by cases h; exact .refl b
  | t :: ts, b, _, ht, h => by
    rw [parseTokens] at h
    cases hb : t.apply b with
    | ok _ b₀ =>
      rw [Recorder.bind_ok hb] at h
      exact (kinds_kept_of_apply (ht t (List.mem_cons_self _ _)) hb).trans
        (kindsKept_parseTokens ts _ _ (fun t' h' => ht t' (List.mem_cons_of_mem _ h')) h)
    | error => rw [Recorder.bind_error hb] at h; cases h

theorem mismatchSound_parseTokens : ∀ (tokens : List Token) (b b' : DAGBuilder) (e : BuilderError),
    parseTokens tokens b = .error e b' → MismatchSound e b'
  | [], _, _, _, h => by cases h
  | t :: ts, b, _, _, h => by
    rw [parseTokens] at h
    cases hb : t.apply b with
    | ok _ b₀ => rw [Recorder.bind_ok hb] at h; exact mismatchSound_parseTokens ts _ _ _ h
    | error => rw [Recorder.bind_error hb] at h; cases h; exact mismatchSound_of_apply hb

/-- Over every run of `parse_tokens`: one that returns normally and sets no `type` attribute
    leaves every node that had a concrete kind registered with that kind; and one that raises the
    kind mismatch raises it for a concrete request that differs from the concrete kind a node of
    the registry has, never for an `Unknown` on either side. -/
theorem recorded_kinds_only_conflict (tokens : List Token) (b b' : DAGBuilder) :
    ((∀ t ∈ tokens, ∀ name value, t ≠ .attribute name "type" value) →
      parseTokens tokens b = .ok () b' → KindsKept b b') ∧
      ∀ e, parseTokens tokens b = .error e b' → MismatchSound e b' :=
  ⟨kindsKept_parseTokens tokens b b', mismatchSound_parseTokens tokens b b'⟩

/-- `a` made a `Block` by its `type` attribute, then `c` parented to `a`. -/
theorem recorded_kinds_only_conflict_block :
    (∀ t ∈ [Token.parent "c" "a"], ∀ name value, t ≠ .attribute name "type" value) ∧
      KindsKept (Recorder.after (parseTokens [.attribute "a" "type" "block"] .empty))
        (Recorder.after (parseTokens [.attribute "a" "type" "block", .parent "c" "a"] .empty)) :=
  have ht : ∀ t ∈ [Token.parent "c" "a"], ∀ name value, t ≠ .attribute name "type" value := by
    simp
  ⟨ht, (recorded_kinds_only_conflict [.parent "c" "a"] _ _).1 ht rfl⟩

/-! ### The type attribute bypasses the check -/

/-- `add_attribute('b1', 'type', 'block')` then `add_attribute('b1', 'type', 'token')` both return
    normally, and the second turns the resolved `Block` into `Token`. -/
theorem type_attribute_overwrites_kind :
    ∃ b₁ b₂, addAttribute "b1" "type" "block" .empty = .ok () b₁ ∧ (b₁.getD "b1").type = .Block ∧
      addAttribute "b1" "type" "token" b₁ = .ok () b₂ ∧ (b₂.getD "b1").type = .Token :=
  ⟨_, _, rfl, rfl, rfl, rfl⟩

end HathorCore.DagBuilder
