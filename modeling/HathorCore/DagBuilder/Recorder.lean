import HathorCore.DagBuilder.Registry

/-! # DAG builder: the relationship recorder

The six mutating calls of `DAGBuilder` (`builder.py`, lines 111–164) and `parse_tokens`, which
dispatches a token stream to them. Each call first makes sure the nodes it touches exist, through
`_get_or_create_node`, and then mutates them by name.

`parse_tokens` stops at the first exception, and the spec makes every recorder error fatal to the
build, so the registries the rest of the development reasons about are those that a run of
`parse_tokens` returns normally from: `Reachable`. -/

namespace HathorCore.DagBuilder

/-! ### The recorder calls -/

/-- `outputs.extend([None] * (index - len(outputs) + 1))`. -/
def extendOutputs (outputs : List (Option DAGOutput)) (index : Int) : List (Option DAGOutput) :=
  outputs ++ List.replicate (index - outputs.length + 1).toNat none

/-- The outputs of the spent node after `add_spending_edge` grows them: `extend` with `None`,
    then the placeholder `DAGOutput(0, '', {})` in slot `index`. -/
def spendOutputs (outputs : List (Option DAGOutput)) (index : Int) : List (Option DAGOutput) :=
  (extendOutputs outputs index).set index.toNat (some ⟨0, "", []⟩)

/-- `DAGBuilder.add_deps`. -/
def addDeps (_from _to : String) : Recorder Unit := do
  let _ ← getOrCreateNode _from
  let _ ← getOrCreateNode _to
  updateNode _from fun from_node => { from_node with deps := setAdd from_node.deps _to }

/-- `DAGBuilder.add_parent_edge`. -/
def addParentEdge (_from _to : String) : Recorder Unit := do
  let _ ← getOrCreateNode _to
  let _ ← getOrCreateNode _from
  updateNode _from fun from_node => { from_node with parents := setAdd from_node.parents _to }

/-- The loop of `DAGBuilder.add_blockchain` at index `i` with `count` iterations left; `prev` is
    the parent of the next block. -/
def addBlockchainLoop (pfx : String) : Option String → Int → Nat → Recorder Unit
  | _, _, 0 => pure ()
  | prev, i, count + 1 => do
    let name := pfx ++ toString i
    let _ ← getOrCreateNode name .Block
    match prev with
    | some prev => addParentEdge name prev
    | none => pure ()
    addBlockchainLoop pfx (some name) (i + 1) count

/-- `DAGBuilder.add_blockchain`: `range(first_index, last_index + 1)` has
    `max 0 (last_index + 1 - first_index)` elements. -/
def addBlockchain (pfx : String) (first_parent : Option String) (first_index last_index : Int) :
    Recorder Unit :=
  addBlockchainLoop pfx first_parent first_index (last_index + 1 - first_index).toNat

/-- `DAGBuilder.add_spending_edge`. -/
def addSpendingEdge (_from _to : String) (_txout_index : Int) : Recorder Unit := do
  let to_node ← getOrCreateNode _to
  if to_node.outputs.length ≤ _txout_index then
    updateNode _to fun to_node =>
      { to_node with outputs := spendOutputs to_node.outputs _txout_index }
  let _ ← getOrCreateNode _from
  updateNode _from fun from_node =>
    { from_node with inputs := setAdd from_node.inputs ⟨_to, _txout_index⟩ }

/-- The outputs `set_output` leaves on a node whose outputs were `outputs`, or `none` for the
    `IndexError` of a negative index out of range. -/
def writeOutput (outputs : List (Option DAGOutput)) (index : Int) (output : DAGOutput) :
    Option (List (Option DAGOutput)) :=
  pySetItem (if outputs.length ≤ index then extendOutputs outputs index else outputs) index
    (some output)

/-- `DAGBuilder.set_output`. -/
def setOutput (name : String) (index amount : Int) (token : String)
    (attrs : List (String × String)) : Recorder Unit := do
  let node ← getOrCreateNode name
  match writeOutput node.outputs index ⟨amount, token, attrs⟩ with
  | none => throw (.indexError index)
  | some outputs => updateNode name fun node => { node with outputs := outputs }
  if token ≠ "HTR" then
    let _ ← getOrCreateNode token .Token
    updateNode name fun node => { node with deps := setAdd node.deps token }

/-- `DAGBuilder.add_attribute`: the key `type` assigns the kind directly. -/
def addAttribute (name key value : String) : Recorder Unit := do
  let _ ← getOrCreateNode name
  if key = "type" then
    match DAGNodeType.ofValue value with
    | none => throw (.valueError value)
    | some t => updateNode name fun node => { node with type := t }
  else
    updateNode name fun node => { node with attrs := dictSet node.attrs key value }

/-! ### One spec lemma per call -/

section Spec

variable (b : DAGBuilder)

theorem addDeps_apply (_from _to : String) :
    addDeps _from _to b = .ok () (((b.ensure _from).ensure _to).modifyNode _from
      fun n => { n with deps := setAdd n.deps _to }) := by
  simp only [addDeps, Recorder.bind_apply, EStateM.bind, getOrCreateNode_unknown, updateNode_apply]

theorem addParentEdge_apply (_from _to : String) :
    addParentEdge _from _to b = .ok () (((b.ensure _to).ensure _from).modifyNode _from
      fun n => { n with parents := setAdd n.parents _to }) := by
  simp only [addParentEdge, Recorder.bind_apply, EStateM.bind, getOrCreateNode_unknown,
    updateNode_apply]

theorem addSpendingEdge_apply (_from _to : String) (i : Int) :
    addSpendingEdge _from _to i b = .ok ()
      (((if ((b.getD _to).outputs.length : Int) ≤ i then
          (b.ensure _to).modifyNode _to fun n => { n with outputs := spendOutputs n.outputs i }
        else b.ensure _to).ensure _from).modifyNode _from
          fun n => { n with inputs := setAdd n.inputs ⟨_to, i⟩ }) := by
  simp only [addSpendingEdge, Recorder.bind_apply, EStateM.bind, getOrCreateNode_unknown]
  split <;> simp only [Recorder.bind_apply, EStateM.bind, updateNode_apply, Recorder.pure_apply,
    getOrCreateNode_unknown]

theorem setOutput_apply (name : String) (index amount : Int) (token : String)
    (attrs : List (String × String)) :
    setOutput name index amount token attrs b =
      match writeOutput (b.getD name).outputs index ⟨amount, token, attrs⟩ with
      | none => .error (.indexError index) (b.ensure name)
      | some outputs =>
        if token ≠ "HTR" then
          match getOrCreateNode token .Token
            ((b.ensure name).modifyNode name fun n => { n with outputs := outputs }) with
          | .ok _ b' => .ok () (b'.modifyNode name fun n => { n with deps := setAdd n.deps token })
          | .error e b' => .error e b'
        else .ok () ((b.ensure name).modifyNode name fun n => { n with outputs := outputs }) := by
  simp only [setOutput, Recorder.bind_apply, EStateM.bind, getOrCreateNode_unknown]
  cases writeOutput (b.getD name).outputs index ⟨amount, token, attrs⟩ with
  | none => rfl
  | some outputs =>
    simp only [updateNode_apply]
    split
    · simp only [Recorder.bind_apply, EStateM.bind, updateNode_apply]
      cases getOrCreateNode token .Token
        ((b.ensure name).modifyNode name fun n => { n with outputs := outputs }) <;> rfl
    · rfl

theorem addAttribute_apply (name key value : String) :
    addAttribute name key value b =
      if key = "type" then
        match DAGNodeType.ofValue value with
        | none => .error (.valueError value) (b.ensure name)
        | some t => .ok () ((b.ensure name).modifyNode name fun n => { n with type := t })
      else .ok () ((b.ensure name).modifyNode name
        fun n => { n with attrs := dictSet n.attrs key value }) := by
  simp only [addAttribute, Recorder.bind_apply, EStateM.bind, getOrCreateNode_unknown]
  split
  · cases DAGNodeType.ofValue value <;> rfl
  · rfl

/-- The registry after one iteration of the loop of `add_blockchain` that returns normally: the
    block is resolved to `Block`, then parented to `prev`. -/
def DAGBuilder.blockStep (b : DAGBuilder) (name : String) (prev : Option String) : DAGBuilder :=
  match prev with
  | some prev => (((b.resolve name .Block).ensure prev).ensure name).modifyNode name
      fun n => { n with parents := setAdd n.parents prev }
  | none => b.resolve name .Block

theorem addBlockchainLoop_succ (pfx : String) (prev : Option String) (i : Int) (count : Nat) :
    addBlockchainLoop pfx prev i (count + 1) b =
      match getOrCreateNode (pfx ++ toString i) .Block b with
      | .ok _ _ => addBlockchainLoop pfx (some (pfx ++ toString i)) (i + 1) count
          (b.blockStep (pfx ++ toString i) prev)
      | .error e b' => .error e b' := by
  rw [addBlockchainLoop, Recorder.bind_apply, EStateM.bind]
  rcases getOrCreateNode_cases (pfx ++ toString i) .Block b with ⟨e, he⟩ | hok
  · rw [he]
  · rw [hok]
    cases prev <;> simp only [Recorder.bind_apply, EStateM.bind, addParentEdge_apply,
      Recorder.pure_apply, DAGBuilder.blockStep]

/-- A normal return of `set_output` wrote the outputs `writeOutput` computes and, for a
    non-native token, resolved the token node to `Token`, its `_get_or_create_node` returning
    normally, and added it to the deps. -/
theorem setOutput_ok {name : String} {index amount : Int} {token : String}
    {attrs : List (String × String)} {b' : DAGBuilder}
    (h : setOutput name index amount token attrs b = .ok () b') :
    ∃ outputs, writeOutput (b.getD name).outputs index ⟨amount, token, attrs⟩ = some outputs ∧
      b' = (if token = "HTR" then
          (b.ensure name).modifyNode name fun n => { n with outputs := outputs }
        else ((b.ensure name).modifyNode name fun n => { n with outputs := outputs }).resolve
          token .Token |>.modifyNode name fun n => { n with deps := setAdd n.deps token }) ∧
      (token ≠ "HTR" → ∃ n, getOrCreateNode token .Token
        ((b.ensure name).modifyNode name fun n => { n with outputs := outputs }) =
          .ok n (((b.ensure name).modifyNode name fun n => { n with outputs := outputs }).resolve
            token .Token)) := by
  rw [setOutput_apply] at h
  cases hw : writeOutput (b.getD name).outputs index ⟨amount, token, attrs⟩ with
  | none => rw [hw] at h; cases h
  | some outputs =>
    refine ⟨outputs, rfl, ?_⟩
    rw [hw] at h
    dsimp only at h
    by_cases ht : token = "HTR"
    · rw [if_neg (not_not.2 ht)] at h
      cases h; simp [ht]
    · rw [if_pos ht] at h
      rcases getOrCreateNode_cases token .Token
        ((b.ensure name).modifyNode name fun n => { n with outputs := outputs }) with
        ⟨e, he⟩ | hok
      · rw [he] at h; cases h
      · rw [hok] at h; cases h; exact ⟨by simp [ht], fun _ => ⟨_, hok⟩⟩

/-- A normal return of the loop with an iteration left: the block's `_get_or_create_node`
    returned normally, and the rest of the loop returned normally from what the iteration left. -/
theorem addBlockchainLoop_succ_ok {pfx : String} {prev : Option String} {i : Int} {count : Nat}
    {b' : DAGBuilder} (h : addBlockchainLoop pfx prev i (count + 1) b = .ok () b') :
    (∃ n, getOrCreateNode (pfx ++ toString i) .Block b =
        .ok n (b.resolve (pfx ++ toString i) .Block)) ∧
      addBlockchainLoop pfx (some (pfx ++ toString i)) (i + 1) count
        (b.blockStep (pfx ++ toString i) prev) = .ok () b' := by
  rw [addBlockchainLoop_succ] at h
  rcases getOrCreateNode_cases (pfx ++ toString i) .Block b with ⟨e, he⟩ | hok
  · rw [he] at h; cases h
  · rw [hok] at h; exact ⟨⟨_, hok⟩, h⟩

theorem addAttribute_ok {name key value : String} {b' : DAGBuilder}
    (h : addAttribute name key value b = .ok () b') :
    (key = "type" ∧ ∃ t, DAGNodeType.ofValue value = some t ∧
        b' = (b.ensure name).modifyNode name fun n => { n with type := t }) ∨
      (key ≠ "type" ∧
        b' = (b.ensure name).modifyNode name fun n => { n with attrs := dictSet n.attrs key value }) := by
  rw [addAttribute_apply] at h
  split at h
  · split at h
    · cases h
    · cases h; exact .inl ⟨‹_›, _, ‹_›, rfl⟩
  · cases h; exact .inr ⟨‹_›, rfl⟩

/-- A property kept by `_get_or_create_node(name, default_type=Block)` and `add_parent_edge`, when
    they return normally, is kept by the loop of `add_blockchain`. -/
theorem addBlockchainLoop_induction (P : DAGBuilder → Prop)
    (hblock : ∀ b b' name n, P b → getOrCreateNode name .Block b = .ok n b' → P b')
    (hparent : ∀ b b' _from _to, P b → addParentEdge _from _to b = .ok () b' → P b')
    (pfx : String) : ∀ (count : Nat) (prev : Option String) (i : Int) (b b' : DAGBuilder),
      P b → addBlockchainLoop pfx prev i count b = .ok () b' → P b'
  | 0, _, _, b, b', hb, h => by cases h; exact hb
  | count + 1, prev, i, b, b', hb, h => by
    obtain ⟨⟨_, hok⟩, h⟩ := addBlockchainLoop_succ_ok b h
    refine addBlockchainLoop_induction P hblock hparent pfx count _ _ _ _ ?_ h
    have hb1 := hblock _ _ _ _ hb hok
    cases prev with
    | none => exact hb1
    | some prev => exact hparent _ _ _ _ hb1 (addParentEdge_apply _ _ _)

end Spec

/-! ### Tokens -/

/-- The token shapes `parse_tokens` matches; its fallback `NotImplementedError` has no token to
    match here, since the type is closed. -/
inductive Token where
  | parent (_from _to : String)
  | spend (_from _to : String) (_txout_index : Int)
  | attribute (name key value : String)
  | orderBefore (_from _to : String)
  | output (name : String) (index amount : Int) (token : String) (attrs : List (String × String))
  | blockchain (pfx : String) (first_parent : Option String) (begin_index end_index : Int)
  deriving DecidableEq, Repr

/-- The recorder call `parse_tokens` dispatches one token to. -/
def Token.apply : Token → Recorder Unit
  | .parent _from _to => addParentEdge _from _to
  | .spend _from _to _txout_index => addSpendingEdge _from _to _txout_index
  | .attribute name key value => addAttribute name key value
  | .orderBefore _from _to => addDeps _from _to
  | .output name index amount token attrs => setOutput name index amount token attrs
  | .blockchain pfx first_parent begin_index end_index =>
    addBlockchain pfx first_parent begin_index end_index

/-- `DAGBuilder.parse_tokens`. -/
def parseTokens : List Token → Recorder Unit
  | [] => pure ()
  | t :: ts => do t.apply; parseTokens ts

/-- The spec's end-to-end scenario (§8), with one more output in a custom token. -/
def endToEndScript : List Token :=
  [.blockchain "blk" none 0 1, .output "blk0" 0 100 "HTR" [], .spend "tx1" "blk0" 0,
    .output "tx1" 0 10 "TK1" []]

/-- A registry that some run of `parse_tokens` on a fresh builder returns normally from. -/
def Reachable (b : DAGBuilder) : Prop :=
  ∃ tokens, parseTokens tokens DAGBuilder.empty = .ok () b

/-- A property that every recorder call keeps when it returns normally holds of the registry
    after every normal run of `parse_tokens`. -/
theorem parseTokens_induction (P : DAGBuilder → Prop)
    (step : ∀ (t : Token) (b b' : DAGBuilder), P b → t.apply b = .ok () b' → P b') :
    ∀ (tokens : List Token) (b b' : DAGBuilder), P b → parseTokens tokens b = .ok () b' → P b'
  | [], b, b', hb, h => by cases h; exact hb
  | t :: ts, b, b', hb, h => by
    rw [parseTokens, Recorder.bind_apply, EStateM.bind] at h
    split at h
    · exact parseTokens_induction P step ts _ _ (step t _ _ hb ‹_›) h
    · cases h

theorem Reachable.induction (P : DAGBuilder → Prop) (empty : P DAGBuilder.empty)
    (step : ∀ (t : Token) (b b' : DAGBuilder), P b → t.apply b = .ok () b' → P b')
    {b : DAGBuilder} (h : Reachable b) : P b :=
  let ⟨tokens, h⟩ := h
  parseTokens_induction P step tokens _ _ empty h

end HathorCore.DagBuilder
