import HathorCore.DagBuilder.Recorder

/-! # DAG builder: sparse outputs

`set_output` and `add_spending_edge` both grow a node's output list with `None` up to the slot
they name, with the same `[None] * (index - len(outputs) + 1)` arithmetic. For a non-negative slot
`i` the list they leave is the old list padded with `None` to `max (len L) (i + 1)` slots, with slot
`i` written: `set_output` always writes its descriptor, and `add_spending_edge` writes the
placeholder `DAGOutput(0, '', {})` only when it had to grow the list. Both touch the outputs of no
other node, and `set_output` has written its slot before the token node it may raise on.

The second rule leaves a spent slot unset when the slot already existed as padding. -/

namespace HathorCore.DagBuilder

open DAGBuilder

/-! ### The padding arithmetic -/

theorem extendOutputs_eq (L : List (Option DAGOutput)) {i : Int} (h : (L.length : Int) ≤ i) :
    extendOutputs L i = L ++ List.replicate (i.toNat + 1 - L.length) none := by
  unfold extendOutputs; congr 2; omega

theorem writeOutput_of_nonneg (L : List (Option DAGOutput)) (d : DAGOutput) {i : Int} (hi : 0 ≤ i) :
    writeOutput L i d =
      some ((L ++ List.replicate (max L.length (i.toNat + 1) - L.length) none).set i.toNat
        (some d)) := by
  unfold writeOutput pySetItem
  by_cases h : (L.length : Int) ≤ i
  · rw [if_pos h, extendOutputs_eq L h, max_eq_right (by omega)]
    simp only [not_lt.2 hi, if_false, List.length_append, List.length_replicate]
    rw [if_pos ⟨hi, by omega⟩]
  · rw [if_neg h, max_eq_left (by omega)]
    simp only [not_lt.2 hi, if_false, Nat.sub_self, List.replicate_zero, List.append_nil]
    rw [if_pos ⟨hi, by omega⟩]

theorem spendOutputs_eq (L : List (Option DAGOutput)) {i : Int} (h : (L.length : Int) ≤ i) :
    spendOutputs L i =
      (L ++ List.replicate (i.toNat + 1 - L.length) none).set i.toNat (some ⟨0, "", []⟩) := by
  rw [spendOutputs, extendOutputs_eq L h]

theorem length_spendOutputs (L : List (Option DAGOutput)) {i : Int} (h : (L.length : Int) ≤ i) :
    ((spendOutputs L i).length : Int) = i + 1 := by
  rw [spendOutputs_eq L h, List.length_set, List.length_append, List.length_replicate]; omega

/-- Repeating a write that succeeded writes the same outputs. -/
theorem writeOutput_idem {L L' : List (Option DAGOutput)} {i : Int} {d : DAGOutput}
    (h : writeOutput L i d = some L') : writeOutput L' i d = some L' := by
  obtain ⟨hlen, hlt⟩ := pySetItem_length h
  unfold writeOutput
  rw [if_neg (by omega)]
  exact pySetItem_idem h

theorem mem_extendOutputs {L : List (Option DAGOutput)} {i : Int} {o : Option DAGOutput}
    (h : o ∈ extendOutputs L i) : o ∈ L ∨ o = none := by
  rcases List.mem_append.1 h with h | h
  · exact .inl h
  · exact .inr (List.eq_of_mem_replicate h)

/-- Every slot of the written list is an old slot, padding, or the written descriptor. -/
theorem mem_of_writeOutput {L outputs : List (Option DAGOutput)} {i : Int} {d : DAGOutput}
    (h : writeOutput L i d = some outputs) {o : Option DAGOutput} (ho : o ∈ outputs) :
    o ∈ L ∨ o = none ∨ o = some d := by
  rcases mem_of_pySetItem h ho with ho | ho
  · split at ho
    · exact (mem_extendOutputs ho).elim .inl (.inr ∘ .inl)
    · exact .inl ho
  · exact .inr (.inr ho)

theorem mem_spendOutputs {L : List (Option DAGOutput)} {i : Int} {o : Option DAGOutput}
    (h : o ∈ spendOutputs L i) : o ∈ L ∨ o = none ∨ o = some ⟨0, "", []⟩ := by
  rcases List.mem_or_eq_of_mem_set h with h | h
  · exact (mem_extendOutputs h).elim .inl (.inr ∘ .inl)
  · exact .inr (.inr h)

/-! ### What the two calls leave -/

section Frame

variable (b : DAGBuilder) (name : String)

theorem outputs_after_setOutput (index amount : Int) (token : String)
    (attrs : List (String × String)) {outputs : List (Option DAGOutput)}
    (hw : writeOutput (b.getD name).outputs index ⟨amount, token, attrs⟩ = some outputs) (m : String) :
    ((Recorder.after (setOutput name index amount token attrs b)).getD m).outputs =
      if m = name then outputs else (b.getD m).outputs := by
  have written : (((b.ensure name).modifyNode name fun n => { n with outputs := outputs }).getD
      m).outputs = if m = name then outputs else (b.getD m).outputs := by
    rw [getD_modifyNode_of_mem _ (by simp)]; split <;> simp_all
  rw [setOutput_apply, hw]
  dsimp only
  split
  · rcases getOrCreateNode_cases token .Token
      ((b.ensure name).modifyNode name fun n => { n with outputs := outputs }) with ⟨e, he⟩ | hok
    · rw [he]; exact written
    · rw [hok, Recorder.after, outputs_modifyNode _ (by simp),
        getD_resolve_field DAGNode.outputs (fun _ _ => rfl), written]
  · exact written

theorem outputs_after_addSpendingEdge (_from : String) (i : Int) (m : String) :
    ((Recorder.after (addSpendingEdge _from name i b)).getD m).outputs =
      if m = name ∧ ((b.getD name).outputs.length : Int) ≤ i then
        spendOutputs (b.getD name).outputs i
      else (b.getD m).outputs := by
  simp only [addSpendingEdge_apply, Recorder.after]
  rw [outputs_modifyNode _ (by simp), getD_ensure]
  split
  · rw [getD_modifyNode_of_mem _ (by simp), getD_ensure]
    by_cases hm : m = name <;> simp_all
  · rename_i h; simp [h]

/-- For every slot `i ≥ 0`: `set_output` leaves the outputs padded with `None` to
    `max (len L) (i + 1)` slots with slot `i` written, and `add_spending_edge` leaves them alone
    when slot `i` exists and otherwise pads them to `i + 1` slots with the placeholder in slot `i`.
    Neither changes another node's outputs, whether the call returns or raises. -/
theorem sparse_outputs_padding (b : DAGBuilder) (name : String) (i : Nat) :
    let L := (b.getD name).outputs
    (∀ (amount : Int) (token : String) (attrs : List (String × String)),
      let b' := Recorder.after (setOutput name i amount token attrs b)
      (b'.getD name).outputs =
          (L ++ List.replicate (max L.length (i + 1) - L.length) none).set i
            (some ⟨amount, token, attrs⟩) ∧
        ∀ m ≠ name, (b'.getD m).outputs = (b.getD m).outputs) ∧
    ∀ _from : String,
      let b' := Recorder.after (addSpendingEdge _from name i b)
      (b'.getD name).outputs =
          (if i < L.length then L
            else (L ++ List.replicate (i + 1 - L.length) none).set i (some ⟨0, "", []⟩)) ∧
        ∀ m ≠ name, (b'.getD m).outputs = (b.getD m).outputs := by
  intro L
  refine ⟨fun amount token attrs => ?_, fun _from => ⟨?_, fun m hm => ?_⟩⟩
  · have hw := writeOutput_of_nonneg L ⟨amount, token, attrs⟩ (Int.ofNat_nonneg i)
    rw [Int.toNat_ofNat] at hw
    exact ⟨by rw [outputs_after_setOutput b name _ _ _ _ hw, if_pos rfl],
      fun m hm => by rw [outputs_after_setOutput b name _ _ _ _ hw, if_neg hm]⟩
  · rw [outputs_after_addSpendingEdge]
    by_cases h : i < L.length
    · simp [L, h]
    · have hle : (L.length : Int) ≤ i := by omega
      simp [L, h, hle, spendOutputs_eq _ hle]
  · simp [outputs_after_addSpendingEdge, hm]

end Frame

/-! ### A spent slot left unset -/

/-- `set_output('tx1', 3, 500, 'HTR', {})` pads slots 0–2 with `None`; a later spend of slot 1
    finds the slot present, so `add_spending_edge` records the input and leaves the slot `None`. -/
theorem spend_of_padding_slot_left_unset :
    ∃ b, parseTokens [.output "tx1" 3 500 "HTR" [], .spend "tx2" "tx1" 1] DAGBuilder.empty =
        .ok () b ∧
      ⟨"tx1", 1⟩ ∈ (b.getD "tx2").inputs ∧ (b.getD "tx1").outputs[1]? = some none :=
  ⟨_, rfl, by decide, by decide⟩

end HathorCore.DagBuilder
