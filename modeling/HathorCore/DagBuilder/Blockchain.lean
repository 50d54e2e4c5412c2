import HathorCore.DagBuilder.Kinds

/-! # DAG builder: `add_blockchain`

`add_blockchain(prefix, first_parent, first_index, last_index)` runs, for each `i` in
`range(first_index, last_index + 1)`, `_get_or_create_node(f'{prefix}{i}', Block)` and then
`add_parent_edge(f'{prefix}{i}', prev)`, where `prev` is `first_parent` for the first block and the
block before it afterwards. When it returns normally each block exists with kind `Block` and is
parented to its predecessor, the first one to `first_parent`; it adds no other parent edge and
creates no node other than the blocks and `first_parent`.

`LoopDone` states what the loop leaves, by the same recursion as the loop; the indexed form,
`ChainBuilt`, is read off it at the end. -/

namespace HathorCore.DagBuilder

open DAGBuilder

/-! ### Keys and parents only grow -/

/-- `b'` keeps the keys of `b` and the parents of each of its nodes. -/
def Extends (b b' : DAGBuilder) : Prop :=
  (∀ k ∈ b.keys, k ∈ b'.keys) ∧ ∀ k x, x ∈ (b.getD k).parents → x ∈ (b'.getD k).parents

namespace Extends

variable {b b' b'' : DAGBuilder}

theorem refl (b : DAGBuilder) : Extends b b := ⟨fun _ h => h, fun _ _ h => h⟩

theorem trans (h : Extends b b') (h' : Extends b' b'') : Extends b b'' :=
  ⟨fun k hk => h'.1 k (h.1 k hk), fun k x hx => h'.2 k x (h.2 k x hx)⟩

theorem addBlockchainLoop {pfx : String} {prev : Option String} {i : Int} {count : Nat}
    (h : HathorCore.DagBuilder.addBlockchainLoop pfx prev i count b = .ok () b') : Extends b b' :=
  addBlockchainLoop_induction (Extends b)
    (fun _ _ _ _ hb hr => by
      rw [getOrCreateNode_ok hr]
      exact hb.trans ⟨fun n hn => by simp [hn], fun n x hx => by
        rwa [getD_resolve_field DAGNode.parents (fun _ _ => rfl)]⟩)
    (fun _ _ _ _ hb hr => by
      rw [addParentEdge_apply] at hr; cases hr
      refine hb.trans ⟨fun n hn => by simp [keys_modifyNode, hn], fun n x hx => ?_⟩
      rw [getD_modifyNode_of_mem _ (by simp), getD_ensure, getD_ensure]
      split
      · subst n; simp [hx]
      · simpa using hx)
    pfx _ _ _ _ _ (refl b) h

end Extends

/-! ### One iteration -/

section Step

variable {b : DAGBuilder} {name k x : String} {prev : Option String}

theorem mem_keys_blockStep :
    k ∈ (b.blockStep name prev).keys ↔ k ∈ b.keys ∨ k = name ∨ prev = some k := by
  cases prev with
  | none => simp [blockStep]
  | some p => simp [blockStep, keys_modifyNode]; tauto

theorem type_blockStep :
    ((b.blockStep name prev).getD k).type = ((b.resolve name .Block).getD k).type := by
  cases prev with
  | none => rfl
  | some p =>
    simp only [blockStep]
    rw [getD_modifyNode_of_mem _ (by simp), getD_ensure, getD_ensure]
    split <;> simp_all

theorem parents_blockStep :
    x ∈ ((b.blockStep name prev).getD k).parents ↔
      x ∈ (b.getD k).parents ∨ (k = name ∧ prev = some x) := by
  have hres : ∀ n, ((b.resolve name .Block).getD n).parents = (b.getD n).parents := fun _ =>
    getD_resolve_field DAGNode.parents (fun _ _ => rfl) .Block
  cases prev with
  | none => simp [blockStep, hres]
  | some p =>
    simp only [blockStep]
    rw [getD_modifyNode_of_mem _ (by simp), getD_ensure, getD_ensure]
    simp only [hres]
    split <;> simp_all [eq_comm]

/-- An iteration whose block is already a `Block` parented to `prev` changes nothing. -/
theorem blockStep_of_done (hk : name ∈ b.keys) (ht : (b.getD name).type = .Block)
    (hp : ∀ p, prev = some p → p ∈ b.keys ∧ p ∈ (b.getD name).parents) :
    b.blockStep name prev = b := by
  have hres : b.resolve name .Block = b := resolve_of_type hk _ (by rw [ht]; decide)
  cases prev with
  | none => exact hres
  | some p =>
    obtain ⟨hpk, hpp⟩ := hp p rfl
    obtain ⟨v, hv⟩ := mem_keys.1 hk
    simp only [blockStep, hres, ensure_of_mem hpk, ensure_of_mem hk]
    exact modifyNode_id_of _ hv (by rw [getD_of_get? hv] at hpp; simp [setAdd_of_mem hpp])

end Step

/-! ### What the loop leaves -/

/-- The registry `s` has every block of the loop from index `i` with `count` iterations left: it
    exists with kind `Block`, and is parented to `prev` (the first) or to the block before it. -/
def LoopDone (pfx : String) : Option String → Int → Nat → DAGBuilder → Prop
  | _, _, 0, _ => True
  | prev, i, count + 1, s =>
    (pfx ++ toString i ∈ s.keys ∧ (s.getD (pfx ++ toString i)).type = .Block) ∧
    (∀ p, prev = some p → p ∈ s.keys ∧ p ∈ (s.getD (pfx ++ toString i)).parents) ∧
    LoopDone pfx (some (pfx ++ toString i)) (i + 1) count s

theorem LoopDone.mono {pfx : String} :
    ∀ {prev : Option String} {i : Int} {count : Nat} {s s' : DAGBuilder},
      LoopDone pfx prev i count s → Extends s s' → KindsKept s s' → LoopDone pfx prev i count s'
  | _, _, 0, _, _, _, _, _ => trivial
  | _, _, _ + 1, _, _, ⟨⟨hk, ht⟩, hp, rest⟩, he, hkind => by
    have := hkind.getD hk (by rw [ht]; decide)
    exact ⟨⟨this.1, this.2.trans ht⟩, fun p hp' => ⟨he.1 _ (hp p hp').1, he.2 _ _ (hp p hp').2⟩,
      rest.mono he hkind⟩

/-- A normal return of the loop leaves every block it visits in place. -/
theorem loopDone_of_addBlockchainLoop (pfx : String) :
    ∀ (count : Nat) (prev : Option String) (i : Int) (b b' : DAGBuilder),
      addBlockchainLoop pfx prev i count b = .ok () b' → LoopDone pfx prev i count b'
  | 0, _, _, _, _, _ => trivial
  | count + 1, prev, i, b, b', h => by
    obtain ⟨⟨_, hok⟩, h⟩ := addBlockchainLoop_succ_ok b h
    have hB : ((b.blockStep (pfx ++ toString i) prev).getD (pfx ++ toString i)).type = .Block := by
      rw [type_blockStep, getOrCreateNode_ok_type hok (by decide)]
    have hext := Extends.addBlockchainLoop h
    have hkind := (KindsKept.addBlockchainLoop h).getD (mem_keys_blockStep.2 (.inr (.inl rfl)))
      (by rw [hB]; decide)
    refine ⟨⟨hkind.1, hkind.2.trans hB⟩, fun p hp => ⟨hext.1 _ (mem_keys_blockStep.2 (.inr (.inr hp))),
      hext.2 _ _ (parents_blockStep.2 (.inr ⟨rfl, hp⟩))⟩,
      loopDone_of_addBlockchainLoop pfx count _ _ _ _ h⟩

/-- Conversely, the loop run on a registry that already has all its blocks returns normally and
    changes nothing. -/
theorem addBlockchainLoop_of_loopDone (pfx : String) :
    ∀ (count : Nat) (prev : Option String) (i : Int) (s : DAGBuilder),
      LoopDone pfx prev i count s → addBlockchainLoop pfx prev i count s = .ok () s
  | 0, _, _, _, _ => rfl
  | count + 1, prev, i, s, ⟨⟨hk, ht⟩, hp, rest⟩ => by
    rw [addBlockchainLoop_succ, getOrCreateNode_eq, if_neg (by simp [ht]), blockStep_of_done hk ht hp]
    exact addBlockchainLoop_of_loopDone pfx count _ _ s rest

/-! ### Reading the loop by index -/

/-- The parent the loop gives its `j`-th block: `prev` for the first, then the block before. -/
def chainPrev (pfx : String) (prev : Option String) (i : Int) : Nat → Option String
  | 0 => prev
  | j + 1 => some (pfx ++ toString (i + j))

theorem name_shift (pfx : String) (i : Int) (j : Nat) :
    pfx ++ toString (i + 1 + j) = pfx ++ toString (i + (j + 1 : Nat)) := by
  rw [show i + 1 + (j : Int) = i + ((j + 1 : Nat) : Int) by omega]

theorem chainPrev_shift (pfx : String) (prev : Option String) (i : Int) :
    ∀ j, chainPrev pfx (some (pfx ++ toString i)) (i + 1) j = chainPrev pfx prev i (j + 1)
  | 0 => by simp [chainPrev]
  | j + 1 => by simp only [chainPrev, name_shift]

theorem LoopDone.block {pfx : String} : ∀ {prev : Option String} {i : Int} {count : Nat}
    {s : DAGBuilder}, LoopDone pfx prev i count s → ∀ j < count,
      pfx ++ toString (i + j) ∈ s.keys ∧ (s.getD (pfx ++ toString (i + j))).type = .Block
  | _, _, _ + 1, _, ⟨h, _, _⟩, 0, _ => by simpa using h
  | _, _, _ + 1, _, ⟨_, _, rest⟩, j + 1, hj => by
    rw [← name_shift]; exact rest.block j (by omega)

theorem LoopDone.parent {pfx : String} : ∀ {prev : Option String} {i : Int} {count : Nat}
    {s : DAGBuilder}, LoopDone pfx prev i count s → ∀ j < count, ∀ p, chainPrev pfx prev i j = some p →
      p ∈ s.keys ∧ p ∈ (s.getD (pfx ++ toString (i + j))).parents
  | _, _, _ + 1, _, ⟨_, h, _⟩, 0, _, p, hp => by simpa using h p hp
  | _, _, _ + 1, _, ⟨_, _, rest⟩, j + 1, hj, p, hp => by
    rw [← name_shift]; exact rest.parent j (by omega) p (by rwa [chainPrev_shift])

/-- The loop adds no node but its blocks and `prev`, and no parent edge but the chain's. -/
theorem addBlockchainLoop_only (pfx : String) :
    ∀ (count : Nat) (prev : Option String) (i : Int) (b b' : DAGBuilder),
      addBlockchainLoop pfx prev i count b = .ok () b' →
      (∀ k ∈ b'.keys, k ∈ b.keys ∨ (∃ j < count, k = pfx ++ toString (i + j)) ∨ prev = some k) ∧
      ∀ k x, x ∈ (b'.getD k).parents → x ∈ (b.getD k).parents ∨
        ∃ j < count, k = pfx ++ toString (i + j) ∧ chainPrev pfx prev i j = some x
  | 0, _, _, b, b', h => by cases h; exact ⟨fun k hk => .inl hk, fun k x hx => .inl hx⟩
  | count + 1, prev, i, b, b', h => by
    obtain ⟨-, h⟩ := addBlockchainLoop_succ_ok b h
    obtain ⟨hkeys, hpar⟩ := addBlockchainLoop_only pfx count _ _ _ _ h
    refine ⟨fun k hk => ?_, fun k x hx => ?_⟩
    · rcases hkeys k hk with hk | ⟨j, hj, rfl⟩ | hk
      · rcases mem_keys_blockStep.1 hk with hk | rfl | hk
        · exact .inl hk
        · exact .inr (.inl ⟨0, by omega, by simp⟩)
        · exact .inr (.inr hk)
      · exact .inr (.inl ⟨j + 1, by omega, name_shift pfx i j⟩)
      · cases hk; exact .inr (.inl ⟨0, by omega, by simp⟩)
    · rcases hpar k x hx with hx | ⟨j, hj, rfl, hc⟩
      · rcases parents_blockStep.1 hx with hx | ⟨rfl, hp⟩
        · exact .inl hx
        · exact .inr ⟨0, by omega, by simp, hp⟩
      · exact .inr ⟨j + 1, by omega, name_shift pfx i j, (chainPrev_shift pfx prev i j).symm.trans hc⟩

/-! ### The chain -/

/-- What `add_blockchain(prefix, first_parent, a, b)` leaves on `s'` from `s`: the blocks
    `prefix + str(i)` for `i` in `[a, b]`, each a `Block` parented to the one before, the first to
    `first_parent`; no other parent edge, and no node but the blocks and `first_parent`. -/
structure ChainBuilt (s s' : DAGBuilder) (pfx : String) (first_parent : Option String)
    (a b : Int) : Prop where
  blocks : ∀ i, a ≤ i → i ≤ b →
    pfx ++ toString i ∈ s'.keys ∧ (s'.getD (pfx ++ toString i)).type = .Block
  linked : ∀ i, a < i → i ≤ b → pfx ++ toString (i - 1) ∈ (s'.getD (pfx ++ toString i)).parents
  first : ∀ f, first_parent = some f → f ∈ s'.keys ∧ f ∈ (s'.getD (pfx ++ toString a)).parents
  only_edges : ∀ k x, x ∈ (s'.getD k).parents → x ∈ (s.getD k).parents ∨
    (∃ i, a < i ∧ i ≤ b ∧ k = pfx ++ toString i ∧ x = pfx ++ toString (i - 1)) ∨
    (k = pfx ++ toString a ∧ first_parent = some x)
  only_nodes : ∀ k ∈ s'.keys,
    k ∈ s.keys ∨ (∃ i, a ≤ i ∧ i ≤ b ∧ k = pfx ++ toString i) ∨ first_parent = some k

/-- `add_blockchain` over a non-empty range builds the chain when it returns normally, and over
    an empty range returns normally and changes nothing. -/
theorem add_blockchain_builds_chain (s : DAGBuilder) (pfx : String) (first_parent : Option String)
    (a b : Int) :
    (∀ s', a ≤ b → addBlockchain pfx first_parent a b s = .ok () s' →
      ChainBuilt s s' pfx first_parent a b) ∧
    (b < a → addBlockchain pfx first_parent a b s = .ok () s) := by
  refine ⟨fun s' hab h => ?_, fun hba => ?_⟩
  · unfold addBlockchain at h
    have done := loopDone_of_addBlockchainLoop pfx _ _ _ _ _ h
    obtain ⟨hkeys, hpar⟩ := addBlockchainLoop_only pfx _ _ _ _ _ h
    have index : ∀ i, a ≤ i → i ≤ b → i = a + ((i - a).toNat : Int) ∧
        (i - a).toNat < (b + 1 - a).toNat := fun i h1 h2 => ⟨by omega, by omega⟩
    refine ⟨fun i h1 h2 => ?_, fun i h1 h2 => ?_, fun f hf => ?_, fun k x hx => ?_, fun k hk => ?_⟩
    · obtain ⟨hi, hj⟩ := index i h1 h2
      rw [hi]; exact done.block _ hj
    · obtain ⟨hi, hj⟩ := index i (by omega) h2
      obtain ⟨j, hj'⟩ : ∃ j, (i - a).toNat = j + 1 := ⟨(i - a).toNat - 1, by omega⟩
      have := done.parent _ hj _ (by rw [hj']; rfl)
      rw [← hi] at this
      rw [show i - 1 = a + (j : Int) by omega]; exact this.2
    · simpa using done.parent 0 (by omega) f hf
    · rcases hpar k x hx with hx | ⟨j, hj, rfl, hc⟩
      · exact .inl hx
      · cases j with
        | zero => exact .inr (.inr ⟨by simp, hc⟩)
        | succ j =>
          cases hc
          exact .inr (.inl ⟨a + (j + 1 : Nat), by omega, by omega, rfl,
            by rw [show a + ((j + 1 : Nat) : Int) - 1 = a + j by omega]⟩)
    · rcases hkeys k hk with hk | ⟨j, hj, rfl⟩ | hk
      · exact .inl hk
      · exact .inr (.inl ⟨a + j, by omega, by omega, rfl⟩)
      · exact .inr (.inr hk)
  · rw [addBlockchain, show (b + 1 - a).toNat = 0 by omega]; rfl

/-- The spec's example `add_chain('b', None, 0, 2)`, and an empty range. -/
theorem add_blockchain_builds_chain_b012 :
    ((0 : Int) ≤ 2 ∧ addBlockchain "b" none 0 2 .empty =
        .ok () (Recorder.after (addBlockchain "b" none 0 2 .empty)) ∧
      ChainBuilt .empty (Recorder.after (addBlockchain "b" none 0 2 .empty)) "b" none 0 2) ∧
    ((0 : Int) < 1 ∧ addBlockchain "b" none 1 0 .empty = .ok () .empty) :=
  ⟨⟨by decide, rfl, (add_blockchain_builds_chain .empty "b" none 0 2).1 _ (by decide) rfl⟩,
    by decide, (add_blockchain_builds_chain .empty "b" none 1 0).2 (by decide)⟩

end HathorCore.DagBuilder
