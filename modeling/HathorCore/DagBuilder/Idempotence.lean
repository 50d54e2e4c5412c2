import HathorCore.DagBuilder.Blockchain
import HathorCore.DagBuilder.Outputs

/-! # DAG builder: repeating a statement

A script may state the same relationship twice. Every recorder call is idempotent: when it
returns normally on a registry, the same call on the registry it leaves returns normally and
leaves it as it is, the insertion order of `_nodes` included. The sets (`parents`, `deps`,
`inputs`) absorb a repeated `add`, a repeated write to an output slot or an attribute writes
what is there, the kinds a call resolves are resolved already, and the loop of
`add_blockchain` finds its fixed point `LoopDone` (`Blockchain.lean`). -/

namespace HathorCore.DagBuilder

open DAGBuilder

/-- A recorder call that, repeated on the registry it returned normally with, returns normally
    and changes nothing. -/
def Idempotent (op : Recorder Unit) : Prop :=
  ∀ b b', op b = .ok () b' → op b' = .ok () b'

/-! ### Edges -/

theorem addParentEdge_idempotent (_from _to : String) : Idempotent (addParentEdge _from _to) := by
  intro b b' h
  rw [addParentEdge_apply] at h ⊢
  cases h
  rw [ensure_of_mem (by simp [keys_modifyNode]), ensure_of_mem (by simp [keys_modifyNode]),
    modifyNode_idem fun n => by simp [setAdd_setAdd]]

theorem addDeps_idempotent (_from _to : String) : Idempotent (addDeps _from _to) := by
  intro b b' h
  rw [addDeps_apply] at h ⊢
  cases h
  rw [ensure_of_mem (by simp [keys_modifyNode]), ensure_of_mem (by simp [keys_modifyNode]),
    modifyNode_idem fun n => by simp [setAdd_setAdd]]

/-- After `add_spending_edge(_, to, i)` slot `i` of `to` exists, so a repeated call does not
    grow the outputs again. -/
theorem addSpendingEdge_idempotent (_from _to : String) (i : Int) :
    Idempotent (addSpendingEdge _from _to i) := by
  intro b b' h
  have grown : ¬ (((b'.getD _to).outputs.length : Int) ≤ i) := by
    rw [show b' = Recorder.after (addSpendingEdge _from _to i b) by rw [h]; rfl,
      outputs_after_addSpendingEdge]
    by_cases hc : ((b.getD _to).outputs.length : Int) ≤ i
    · rw [if_pos ⟨rfl, hc⟩, length_spendOutputs _ hc]; omega
    · rwa [if_neg fun h => hc h.2]
  rw [addSpendingEdge_apply] at h
  cases h
  rw [addSpendingEdge_apply, if_neg grown,
    ensure_of_mem (by simp [keys_modifyNode]),
    ensure_of_mem (by simp only [keys_modifyNode, mem_keys_ensure]; left; split <;> simp [keys_modifyNode]),
    modifyNode_idem fun n => by simp [setAdd_setAdd]]

/-! ### Outputs and attributes -/

/-- What a normal return of `set_output` leaves: the node holds the written outputs and, for a
    non-native token, the token node has kind `Token` and is among the node's deps. -/
theorem setOutput_ok_facts {name : String} {index amount : Int} {token : String}
    {attrs : List (String × String)} {b b' : DAGBuilder}
    (h : setOutput name index amount token attrs b = .ok () b') :
    ∃ outputs, writeOutput (b.getD name).outputs index ⟨amount, token, attrs⟩ = some outputs ∧
      name ∈ b'.keys ∧ (b'.getD name).outputs = outputs ∧
      (token ≠ "HTR" →
        token ∈ b'.keys ∧ (b'.getD token).type = .Token ∧ token ∈ (b'.getD name).deps) := by
  obtain ⟨outputs, hw, rfl, hok⟩ := setOutput_ok b h
  have written : (((b.ensure name).modifyNode name
      fun n => { n with outputs := outputs }).getD name).outputs = outputs := by
    rw [getD_modifyNode_of_mem _ (by simp), if_pos rfl]
  refine ⟨outputs, hw, ?_⟩
  by_cases ht : token = "HTR"
  · rw [if_pos ht]
    exact ⟨by simp [keys_modifyNode], written, fun h' => absurd ht h'⟩
  · obtain ⟨_, hok⟩ := hok ht
    rw [if_neg ht]
    refine ⟨by simp [keys_modifyNode], ?_, fun _ => ⟨by simp [keys_modifyNode], ?_, ?_⟩⟩
    · rw [outputs_modifyNode _ (by simp),
        getD_resolve_field DAGNode.outputs (fun _ _ => rfl), written]
    · rw [getD_modifyNode_field DAGNode.type _ (by simp)]
      exact getOrCreateNode_ok_type hok (by decide)
    · rw [getD_modifyNode_of_mem _ (by simp [keys_modifyNode]), if_pos rfl]; simp

theorem setOutput_idempotent (name : String) (index amount : Int) (token : String)
    (attrs : List (String × String)) : Idempotent (setOutput name index amount token attrs) := by
  intro b b' h
  obtain ⟨outputs, hw, hk, hout, htok⟩ := setOutput_ok_facts h
  have rewritten : writeOutput (b'.getD name).outputs index ⟨amount, token, attrs⟩ =
      some outputs := by rw [hout]; exact writeOutput_idem hw
  have same : (b'.ensure name).modifyNode name (fun n => { n with outputs := outputs }) = b' := by
    rw [ensure_of_mem hk, modifyNode_id_of_mem hk (by rw [← hout])]
  rw [setOutput_apply, rewritten]
  dsimp only
  rw [same]
  split
  · obtain ⟨htk, htt, hdep⟩ := htok ‹_›
    rw [getOrCreateNode_of_resolved htk (.inr htt)]
    dsimp only
    rw [modifyNode_id_of_mem hk (by simp [setAdd_of_mem hdep])]
  · rfl

theorem addAttribute_idempotent (name key value : String) :
    Idempotent (addAttribute name key value) := by
  intro b b' h
  rcases addAttribute_ok b h with ⟨hkey, t, ht, rfl⟩ | ⟨hkey, rfl⟩
  · rw [addAttribute_apply, if_pos hkey, ht]
    dsimp only
    rw [ensure_of_mem (by simp [keys_modifyNode]), modifyNode_idem (by intro; rfl)]
  · rw [addAttribute_apply, if_neg hkey, ensure_of_mem (by simp [keys_modifyNode]),
      modifyNode_idem fun n => by simp [dictSet_dictSet]]

/-! ### Chains -/

theorem addBlockchain_idempotent (pfx : String) (first_parent : Option String)
    (first_index last_index : Int) :
    Idempotent (addBlockchain pfx first_parent first_index last_index) := fun _ _ h =>
  addBlockchainLoop_of_loopDone pfx _ _ _ _ (loopDone_of_addBlockchainLoop pfx _ _ _ _ _ h)

/-! ### Every call -/

theorem Token.apply_idempotent : ∀ t : Token, Idempotent t.apply
  | .parent _from _to => addParentEdge_idempotent _from _to
  | .spend _from _to i => addSpendingEdge_idempotent _from _to i
  | .attribute name key value => addAttribute_idempotent name key value
  | .orderBefore _from _to => addDeps_idempotent _from _to
  | .output name index amount token attrs => setOutput_idempotent name index amount token attrs
  | .blockchain pfx first_parent a b => addBlockchain_idempotent pfx first_parent a b

/-- A recorder call, with any arguments, that returns normally on a registry returns normally
    again on the registry it leaves and leaves that registry exactly as it is. -/
theorem recorder_call_idempotent (t : Token) (s s' : DAGBuilder) (h : t.apply s = .ok () s') :
    t.apply s' = .ok () s' :=
  Token.apply_idempotent t s s' h

/-- The last statement of the end-to-end script, stated once more on the registry it leaves. -/
theorem recorder_call_idempotent_output :
    (Token.output "tx1" 0 10 "TK1" []).apply
        (Recorder.after (parseTokens (endToEndScript.take 3) .empty)) =
      .ok () (Recorder.after (parseTokens endToEndScript .empty)) ∧
    (Token.output "tx1" 0 10 "TK1" []).apply (Recorder.after (parseTokens endToEndScript .empty)) =
      .ok () (Recorder.after (parseTokens endToEndScript .empty)) :=
  ⟨rfl, recorder_call_idempotent _ (Recorder.after (parseTokens (endToEndScript.take 3) .empty))
    _ rfl⟩

end HathorCore.DagBuilder
