import HathorCore.Python

/-! # The pub/sub manager

`hathor/pubsub.py`. A `PubSubManager` keeps in the `defaultdict(list)` `_subscribers` the list
of the functions subscribed to each key. `subscribe(key, fn)` appends `fn` unless it is there.
`unsubscribe(key, fn)` tests membership the same way, then calls `list.pop(fn)`; `pop` takes an
index, and a function is not one, so the call raises `TypeError` and the list keeps `fn`.
`publish(key)` calls the listed functions in order.

Over any run, each key's list is therefore the functions ever subscribed to it, each once, in the
order of their first subscription (`subscribers_run`): an unsubscribe removes nothing. -/

namespace HathorCore

/-- The exception a call of the manager raises. -/
inductive PubSubError where
  /-- `TypeError: 'function' object cannot be interpreted as an integer`, from `list.pop`. -/
  | typeError
  deriving DecidableEq, Repr

/-- The state of a `PubSubManager`: `_subscribers[key]`, which reads as `[]` for a key never
    touched. Functions are compared by `==`. -/
structure PubSubManager (Key Fn : Type) where
  _subscribers : Key → List Fn

namespace PubSubManager

variable {Key Fn : Type} [DecidableEq Key] [DecidableEq Fn]

/-- A call of the manager: it mutates the state and may raise, keeping the mutations made. -/
abbrev PubSubM (Key Fn : Type) := EStateM PubSubError (PubSubManager Key Fn)

/-- The state a call leaves, whether it returns or raises. -/
def after {α : Type} : EStateM.Result PubSubError (PubSubManager Key Fn) α → PubSubManager Key Fn
  | .ok _ m => m
  | .error _ m => m

/-- `PubSubManager()`. -/
def init : PubSubManager Key Fn := ⟨fun _ => []⟩

/-- The state after the list of `key` becomes `l`. -/
def setList (m : PubSubManager Key Fn) (key : Key) (l : List Fn) : PubSubManager Key Fn :=
  ⟨fun k => if k = key then l else m._subscribers k⟩

/-- `PubSubManager.subscribe(key, fn)`. -/
def subscribe (key : Key) (fn : Fn) : PubSubM Key Fn Unit := fun m =>
  if fn ∉ m._subscribers key then .ok () (m.setList key (m._subscribers key ++ [fn]))
  else .ok () m

/-- `PubSubManager.unsubscribe(key, fn)`: `self._subscribers[key].pop(fn)` raises before it
    removes anything, `fn` not being an index. -/
def unsubscribe (key : Key) (fn : Fn) : PubSubM Key Fn Unit := fun m =>
  if fn ∈ m._subscribers key then .error .typeError m
  else .ok () m

/-- The calls of a run. -/
inductive Call (Key Fn : Type) where
  | subscribe (key : Key) (fn : Fn)
  | unsubscribe (key : Key) (fn : Fn)

/-- The state a call leaves. -/
def apply (m : PubSubManager Key Fn) : Call Key Fn → PubSubManager Key Fn
  | .subscribe key fn => after (PubSubManager.subscribe key fn m)
  | .unsubscribe key fn => after (PubSubManager.unsubscribe key fn m)

/-- A run of calls; an exception does not end it. -/
def run (m : PubSubManager Key Fn) (calls : List (Call Key Fn)) : PubSubManager Key Fn :=
  calls.foldl apply m

/-- The function a call subscribes to `key`, if it is a subscription to `key`. -/
def Call.subscribedTo (key : Key) : Call Key Fn → Option Fn
  | .subscribe k fn => if k = key then some fn else none
  | .unsubscribe _ _ => none

/-! ### One call -/

omit [DecidableEq Fn] in
@[simp] theorem setList_subscribers (m : PubSubManager Key Fn) (key k : Key) (l : List Fn) :
    (m.setList key l)._subscribers k = if k = key then l else m._subscribers k := rfl

omit [DecidableEq Fn] in
theorem setList_self (m : PubSubManager Key Fn) (key : Key) :
    m.setList key (m._subscribers key) = m := by
  cases m with
  | mk subscribers => simp only [setList, mk.injEq]; funext k; split <;> simp_all

/-- `subscribe` returns normally and adds `fn` to the list of `key` as `set.add` would. -/
theorem subscribe_ok (key : Key) (fn : Fn) (m : PubSubManager Key Fn) :
    PubSubManager.subscribe key fn m =
      .ok () (m.setList key (setAdd (m._subscribers key) fn)) := by
  unfold PubSubManager.subscribe
  by_cases h : fn ∈ m._subscribers key
  · rw [if_neg (not_not.2 h), setAdd_of_mem h, setList_self]
  · rw [if_pos h, setAdd_of_not_mem h]

omit [DecidableEq Key] in
/-- `unsubscribe` raises `TypeError` exactly when `fn` is subscribed to `key`, and changes
    nothing either way. -/
theorem unsubscribe_eq (key : Key) (fn : Fn) (m : PubSubManager Key Fn) :
    PubSubManager.unsubscribe key fn m =
      if fn ∈ m._subscribers key then .error .typeError m else .ok () m := rfl

omit [DecidableEq Key] in
theorem after_unsubscribe (key : Key) (fn : Fn) (m : PubSubManager Key Fn) :
    after (PubSubManager.unsubscribe key fn m) = m := by
  rw [unsubscribe_eq]; split <;> rfl

/-- The list of `key` after one call: a subscription to `key` adds its function. -/
theorem apply_subscribers (m : PubSubManager Key Fn) (c : Call Key Fn) (key : Key) :
    (m.apply c)._subscribers key =
      ((c.subscribedTo key).map (setAdd (m._subscribers key))).getD (m._subscribers key) := by
  cases c with
  | subscribe k fn =>
    simp only [apply, subscribe_ok, after, setList_subscribers, Call.subscribedTo]
    by_cases hk : key = k
    · subst hk; simp
    · simp [hk, Ne.symm hk]
  | unsubscribe k fn => rw [apply, after_unsubscribe]; rfl

/-! ### Runs -/

/-- Over a run, the list of each key gains, in order, the functions subscribed to it that it
    does not hold yet, and loses none. -/
theorem subscribers_run (key : Key) : ∀ (m : PubSubManager Key Fn) (calls : List (Call Key Fn)),
    (m.run calls)._subscribers key =
      (calls.filterMap (Call.subscribedTo key)).foldl setAdd (m._subscribers key)
  | _, [] => rfl
  | m, c :: calls => by
    rw [run, List.foldl_cons, ← run, subscribers_run key (m.apply c) calls, apply_subscribers,
      List.filterMap_cons]
    cases c.subscribedTo key <;> rfl

/-- From construction, the list of a key is the functions subscribed to it, each once, in the
    order of their first subscription. -/
theorem subscribers_run_init (key : Key) (calls : List (Call Key Fn)) :
    ((init : PubSubManager Key Fn).run calls)._subscribers key =
      pySet (calls.filterMap (Call.subscribedTo key)) :=
  subscribers_run key init calls

/-! ### Unsubscribing a subscribed function -/

/-- After any run from construction in which `fn` is subscribed to `key` at some point, whatever
    the calls after it, `fn` is still subscribed and `unsubscribe(key, fn)` raises `TypeError`. -/
theorem unsubscribe_subscribed_raises (calls calls' : List (Call Key Fn)) (key : Key) (fn : Fn) :
    fn ∈ ((init : PubSubManager Key Fn).run
        (calls ++ .subscribe key fn :: calls'))._subscribers key ∧
      PubSubManager.unsubscribe key fn
          ((init : PubSubManager Key Fn).run (calls ++ .subscribe key fn :: calls')) =
        .error .typeError
          ((init : PubSubManager Key Fn).run (calls ++ .subscribe key fn :: calls')) := by
  have hmem : fn ∈ ((init : PubSubManager Key Fn).run
      (calls ++ .subscribe key fn :: calls'))._subscribers key := by
    rw [subscribers_run_init, mem_pySet, List.mem_filterMap]
    exact ⟨.subscribe key fn, by simp, by simp [Call.subscribedTo]⟩
  exact ⟨hmem, by rw [unsubscribe_eq, if_pos hmem]⟩

/-- `subscribe('k', f)`, then `unsubscribe('k', f)`: `f` stays. -/
example : ((init : PubSubManager String String).run
    [.subscribe "k" "f", .unsubscribe "k" "f"])._subscribers "k" = ["f"] := rfl

/-! ### Publishing

`publish(key)` runs `for fn in self._subscribers[key]: fn(key, args)`. The callbacks may call the
manager themselves: `react fn` is what `fn` runs on it, a sequence of calls and of `try` blocks of
calls whose exception an `except Exception: pass` swallows. An exception outside a `try` block
leaves `fn` and `publish`. Python's list iterator reads the list as it stands at each step, so a
function a callback subscribes to `key` is called in the same loop, and a loop whose callbacks
keep subscribing new functions does not end: the model runs the loop on fuel. -/

/-- A call as a computation of the manager. -/
def Call.exec : Call Key Fn → PubSubM Key Fn Unit
  | .subscribe key fn => PubSubManager.subscribe key fn
  | .unsubscribe key fn => PubSubManager.unsubscribe key fn

/-- Statements run in order; an exception ends the sequence and propagates. -/
def runSeq {α : Type} (exec : α → PubSubM Key Fn Unit) : List α → PubSubM Key Fn Unit
  | [] => fun m => .ok () m
  | s :: ss => fun m =>
    match exec s m with
    | .error e m' => .error e m'
    | .ok () m' => runSeq exec ss m'

/-- A statement of a callback that acts on the manager. -/
inductive Stmt (Key Fn : Type) where
  /-- A call of the manager; its exception propagates. -/
  | call (c : Call Key Fn)
  /-- `try: body` then `except Exception: pass`: the callback goes on from the state the
      raising call left. -/
  | tryExcept (body : List (Call Key Fn))

/-- A statement as a computation of the manager. -/
def Stmt.exec : Stmt Key Fn → PubSubM Key Fn Unit
  | .call c => c.exec
  | .tryExcept body => fun m => .ok () (after (runSeq Call.exec body m))

/-- The calls a statement may make. -/
def Stmt.calls : Stmt Key Fn → List (Call Key Fn)
  | .call c => [c]
  | .tryExcept body => body

/-- The loop of `publish(key)` from position `i` of the key's list, with `fuel` iterations left:
    the functions it calls, in order, or the exception a callback raises; `none` is a loop not
    finished when the fuel runs out. -/
def publishFrom (react : Fn → List (Stmt Key Fn)) (key : Key) :
    Nat → Nat → PubSubManager Key Fn →
      Option (EStateM.Result PubSubError (PubSubManager Key Fn) (List Fn))
  | 0, _, _ => none
  | fuel + 1, i, m =>
    match (m._subscribers key)[i]? with
    | none => some (.ok [] m)
    | some fn =>
      match runSeq Stmt.exec (react fn) m with
      | .error e m' => some (.error e m')
      | .ok () m' =>
        match publishFrom react key fuel (i + 1) m' with
        | some (.ok called m₂) => some (.ok (fn :: called) m₂)
        | some (.error e m₂) => some (.error e m₂)
        | none => none

/-! ### What a callback can do to the lists -/

/-- `m'` extends each list of `m` and keeps it free of duplicates, and the list of `k` gains only
    functions `g` with `added k g`. -/
def Grows (added : Key → Fn → Prop) (m m' : PubSubManager Key Fn) : Prop :=
  ∀ k, m._subscribers k <+: m'._subscribers k ∧
    ((m._subscribers k).Nodup → (m'._subscribers k).Nodup) ∧
    ∀ g ∈ m'._subscribers k, g ∈ m._subscribers k ∨ added k g

omit [DecidableEq Key] [DecidableEq Fn] in
theorem Grows.refl (added : Key → Fn → Prop) (m : PubSubManager Key Fn) : Grows added m m :=
  fun _ => ⟨List.prefix_refl _, id, fun _ h => .inl h⟩

omit [DecidableEq Key] [DecidableEq Fn] in
theorem Grows.trans {P Q : Key → Fn → Prop} {m₁ m₂ m₃ : PubSubManager Key Fn}
    (h₁ : Grows P m₁ m₂) (h₂ : Grows Q m₂ m₃) : Grows (fun k g => P k g ∨ Q k g) m₁ m₃ :=
  fun k =>
    let ⟨hp₁, hn₁, hm₁⟩ := h₁ k
    let ⟨hp₂, hn₂, hm₂⟩ := h₂ k
    ⟨hp₁.trans hp₂, hn₂ ∘ hn₁, fun g hg =>
      (hm₂ g hg).elim (fun h => (hm₁ g h).imp_right .inl) (fun h => .inr (.inr h))⟩

omit [DecidableEq Key] [DecidableEq Fn] in
theorem Grows.mono {P Q : Key → Fn → Prop} {m m' : PubSubManager Key Fn}
    (hPQ : ∀ k g, P k g → Q k g) (h : Grows P m m') : Grows Q m m' :=
  fun k =>
    let ⟨hp, hn, hm⟩ := h k
    ⟨hp, hn, fun g hg => (hm g hg).imp_right (hPQ k g)⟩

theorem prefix_setAdd {α : Type} [DecidableEq α] (s : List α) (x : α) : s <+: setAdd s x := by
  unfold setAdd; split
  exacts [List.prefix_refl _, List.prefix_append _ _]

/-- Whether it returns or raises, a call only appends to the lists, and the list of `k` gains only
    the function it subscribes to `k`. -/
theorem Call.exec_grows (c : Call Key Fn) (m : PubSubManager Key Fn) :
    Grows (fun k g => c = .subscribe k g) m (after (c.exec m)) := by
  cases c with
  | subscribe key fn =>
    intro k
    simp only [Call.exec, subscribe_ok, after, setList_subscribers]
    split
    · subst k
      refine ⟨prefix_setAdd _ _, fun h => nodup_setAdd h fn, fun g hg => ?_⟩
      rcases (mem_setAdd _ _ _).1 hg with hg | rfl
      exacts [.inl hg, .inr rfl]
    · exact ⟨List.prefix_refl _, id, fun _ hg => .inl hg⟩
  | unsubscribe key fn => rw [Call.exec, after_unsubscribe]; exact Grows.refl _ m

omit [DecidableEq Key] [DecidableEq Fn] in
/-- Whether it returns or raises, a sequence grows the lists as its statements do. -/
theorem runSeq_grows {α : Type} (exec : α → PubSubM Key Fn Unit) (added : α → Key → Fn → Prop)
    (h : ∀ s m, Grows (added s) m (after (exec s m))) :
    ∀ (ss : List α) (m : PubSubManager Key Fn),
      Grows (fun k g => ∃ s ∈ ss, added s k g) m (after (runSeq exec ss m))
  | [], m => Grows.refl _ m
  | s :: ss, m => by
    have hs := h s m
    simp only [runSeq]
    split <;> rename_i m' heq <;> rw [heq] at hs
    · exact hs.mono fun k g h => ⟨s, List.mem_cons_self _ _, h⟩
    · refine (hs.trans (runSeq_grows exec added h ss m')).mono fun k g => ?_
      rintro (h | ⟨s', hs', h⟩)
      exacts [⟨s, List.mem_cons_self _ _, h⟩, ⟨s', List.mem_cons_of_mem _ hs', h⟩]

theorem Stmt.exec_grows (s : Stmt Key Fn) (m : PubSubManager Key Fn) :
    Grows (fun k g => Call.subscribe k g ∈ s.calls) m (after (s.exec m)) := by
  cases s with
  | call c => exact (Call.exec_grows c m).mono fun k g h => by subst h; exact List.mem_singleton_self _
  | tryExcept body =>
    exact (runSeq_grows Call.exec _ Call.exec_grows body m).mono fun k g ⟨c, hc, h⟩ => h ▸ hc

/-- Whether it returns or raises, a callback only appends to the lists, and the list of `k` gains
    only functions it may subscribe to `k`. -/
theorem runStmts_grows (ss : List (Stmt Key Fn)) (m : PubSubManager Key Fn) :
    Grows (fun k g => ∃ s ∈ ss, Call.subscribe k g ∈ s.calls) m (after (runSeq Stmt.exec ss m)) :=
  runSeq_grows Stmt.exec _ Stmt.exec_grows ss m

theorem runStmts_grows_of_ok {ss : List (Stmt Key Fn)} {m m' : PubSubManager Key Fn}
    (h : runSeq Stmt.exec ss m = .ok () m') :
    Grows (fun k g => ∃ s ∈ ss, Call.subscribe k g ∈ s.calls) m m' := by
  have := runStmts_grows ss m
  rwa [h] at this

omit [DecidableEq Key] [DecidableEq Fn] in
/-- A sequence whose statements all return normally returns normally. -/
theorem runSeq_returns {α : Type} (exec : α → PubSubM Key Fn Unit) :
    ∀ (ss : List α) (m : PubSubManager Key Fn),
      (∀ s ∈ ss, ∀ m, ∃ m', exec s m = .ok () m') → ∃ m', runSeq exec ss m = .ok () m'
  | [], m, _ => ⟨m, rfl⟩
  | s :: ss, m, h => by
    obtain ⟨m₁, h₁⟩ := h s (List.mem_cons_self _ _) m
    simp only [runSeq, h₁]
    exact runSeq_returns exec ss m₁ fun s hs => h s (List.mem_cons_of_mem _ hs)

/-- A subscription and a `try` block return normally. -/
theorem Stmt.exec_returns (s : Stmt Key Fn) (hs : ∀ c, s = .call c → ∃ k g, c = .subscribe k g)
    (m : PubSubManager Key Fn) : ∃ m', s.exec m = .ok () m' := by
  cases s with
  | call c =>
    obtain ⟨k, g, rfl⟩ := hs c rfl
    exact ⟨_, subscribe_ok k g m⟩
  | tryExcept body => exact ⟨_, rfl⟩

/-- A callback that returns normally unsubscribed, outside its `try` blocks, no function
    subscribed when it started: `unsubscribe` raises on those. -/
theorem runStmts_ok : ∀ {ss : List (Stmt Key Fn)} {m m' : PubSubManager Key Fn},
    runSeq Stmt.exec ss m = .ok () m' →
      ∀ k g, Stmt.call (.unsubscribe k g) ∈ ss → g ∉ m._subscribers k
  | [], _, _, _ => by simp
  | s :: ss, m, _, h => by
    simp only [runSeq] at h
    split at h
    · cases h
    · rename_i m₁ hs
      intro k g hg hm
      rcases List.mem_cons.1 hg with rfl | hg
      · rw [Stmt.exec, Call.exec, unsubscribe_eq, if_pos hm] at hs; cases hs
      · have hgrow := ((Stmt.exec_grows s m) k).1
        rw [hs] at hgrow
        exact runStmts_ok h k g hg (hgrow.subset hm)

/-! ### The loop -/

/-- The loop from position `i`, when it returns normally: the lists only grew; the functions it
    called are those of the key's final list from position `i` on; and no callback it called
    unsubscribed, outside its `try` blocks, a function subscribed when the loop reached
    position `i`, nor itself from `key`. -/
theorem publishFrom_ok (react : Fn → List (Stmt Key Fn)) (key : Key) :
    ∀ (fuel i : Nat) (m m' : PubSubManager Key Fn) (called : List Fn),
      publishFrom react key fuel i m = some (.ok called m') →
      (∀ k, m._subscribers k <+: m'._subscribers k) ∧ called = (m'._subscribers key).drop i ∧
      ∀ fn ∈ called, ∀ k g, Stmt.call (.unsubscribe k g) ∈ react fn →
        g ∉ m._subscribers k ∧ (k = key → g ≠ fn)
  | 0, _, _, _, _, h => by cases h
  | fuel + 1, i, m, m', called, h => by
    simp only [publishFrom] at h
    split at h
    · rename_i hget
      cases h
      exact ⟨fun _ => List.prefix_refl _,
        (List.drop_eq_nil_of_le (List.getElem?_eq_none_iff.1 hget)).symm, by simp⟩
    · rename_i fn hget
      split at h
      · cases h
      · rename_i m₁ hrun
        have hgrow k := (runStmts_grows_of_ok hrun k).1
        have hunsub := runStmts_ok hrun
        split at h
        · rename_i called' _ hloop
          cases h
          obtain ⟨hgrow', hcalled, hrest⟩ :=
            publishFrom_ok react key fuel (i + 1) m₁ _ called' hloop
          have hget' : (m'._subscribers key)[i]? = some fn := by
            obtain ⟨t, ht⟩ := (hgrow key).trans (hgrow' key)
            rw [← ht, List.getElem?_append_left (List.getElem?_eq_some_iff.1 hget).1, hget]
          obtain ⟨hlt', hfn⟩ := List.getElem?_eq_some_iff.1 hget'
          refine ⟨fun k => (hgrow k).trans (hgrow' k), ?_, fun fn' hfn' k g hg => ?_⟩
          · rw [hcalled, List.drop_eq_getElem_cons hlt', hfn]
          · rcases List.mem_cons.1 hfn' with rfl | hfn'
            · refine ⟨hunsub k g hg, fun hk hgf => hunsub k g hg ?_⟩
              rw [hk, hgf]; exact List.getElem?_mem hget
            · obtain ⟨hg₁, hself⟩ := hrest fn' hfn' k g hg
              exact ⟨fun hm => hg₁ ((hgrow k).subset hm), hself⟩
        · cases h
        · cases h

/-- The loop from position `i` when every callback, outside its `try` blocks, only subscribes,
    and subscribes to `key` only functions of `U`: with enough fuel it returns normally and
    keeps the key's list free of duplicates. -/
theorem publishFrom_subscribing (react : Fn → List (Stmt Key Fn)) (key : Key) (U : List Fn)
    (hsub : ∀ fn c, Stmt.call c ∈ react fn → ∃ k g, c = .subscribe k g)
    (hU : ∀ fn g, ∀ s ∈ react fn, Call.subscribe key g ∈ s.calls → g ∈ U) :
    ∀ (fuel i : Nat) (m : PubSubManager Key Fn), (m._subscribers key).Nodup →
      (∀ g ∈ m._subscribers key, g ∈ U) → i ≤ (m._subscribers key).length →
      U.length < fuel + i →
      ∃ called m', publishFrom react key fuel i m = some (.ok called m') ∧
        (m'._subscribers key).Nodup
  | 0, i, m, hnd, hm, hi, hfuel => by
    have := (List.subperm_of_subset hnd hm).length_le; omega
  | fuel + 1, i, m, hnd, hm, hi, hfuel => by
    cases hget : (m._subscribers key)[i]? with
    | none => exact ⟨[], m, by simp only [publishFrom, hget], hnd⟩
    | some fn =>
      have hlt : i < (m._subscribers key).length := (List.getElem?_eq_some_iff.1 hget).1
      obtain ⟨m₁, hrun⟩ := runSeq_returns Stmt.exec (react fn) m fun s hs =>
        Stmt.exec_returns s fun c hc => hsub fn c (hc ▸ hs)
      obtain ⟨hpre₁, hnd₁, hmem₁⟩ := runStmts_grows_of_ok hrun key
      obtain ⟨called, m', hloop, hnd'⟩ := publishFrom_subscribing react key U hsub hU fuel (i + 1)
        m₁ (hnd₁ hnd) (fun g hg => (hmem₁ g hg).elim (hm g) fun ⟨s, hs, hg⟩ => hU fn g s hs hg)
        (by have := hpre₁.length_le; omega) (by omega)
      exact ⟨fn :: called, m', by simp only [publishFrom, hget, hrun, hloop], hnd'⟩

/-- When every callback, outside its `try` blocks, only subscribes, and every function a callback
    may subscribe to `key` is in a list `U` holding the key's subscribers, `publish(key)` with
    more iterations than `U` has items returns normally, having called each function of the key's
    list as it stands at the end, once and in order: the subscribers it started with, then those
    its callbacks subscribed to `key` during the loop. -/
theorem publish_calls_final_list (react : Fn → List (Stmt Key Fn)) (key : Key) (U : List Fn)
    (hsub : ∀ fn c, Stmt.call c ∈ react fn → ∃ k g, c = .subscribe k g)
    (hU : ∀ fn g, ∀ s ∈ react fn, Call.subscribe key g ∈ s.calls → g ∈ U)
    (m : PubSubManager Key Fn) (hnd : (m._subscribers key).Nodup)
    (hm : ∀ g ∈ m._subscribers key, g ∈ U) (fuel : Nat) (hfuel : U.length < fuel) :
    ∃ m', publishFrom react key fuel 0 m = some (.ok (m'._subscribers key) m') ∧
      m._subscribers key <+: m'._subscribers key ∧ (m'._subscribers key).Nodup := by
  obtain ⟨called, m', h, hnd'⟩ :=
    publishFrom_subscribing react key U hsub hU fuel 0 m hnd hm (Nat.zero_le _) hfuel
  obtain ⟨hpre, hcalled, -⟩ := publishFrom_ok react key fuel 0 m m' called h
  rw [List.drop_zero] at hcalled
  exact ⟨m', hcalled ▸ h, hpre key, hnd'⟩

/-- Callbacks where `f`, when called, subscribes `g` to `k`, and every other function does
    nothing. -/
def subscribeOnCall (fn : String) : List (Stmt String String) :=
  if fn = "f" then [.call (.subscribe "k" "g")] else []

/-- `f` subscribed to `k`, then `publish('k')`, with `U = [f, g]` and three iterations. -/
theorem publish_calls_final_list_fg :
    (∀ fn c, Stmt.call c ∈ subscribeOnCall fn → ∃ k g, c = .subscribe k g) ∧
    (∀ fn g, ∀ s ∈ subscribeOnCall fn, Call.subscribe "k" g ∈ s.calls → g ∈ ["f", "g"]) ∧
    (((init : PubSubManager String String).run [.subscribe "k" "f"])._subscribers "k").Nodup ∧
    (∀ g ∈ ((init : PubSubManager String String).run [.subscribe "k" "f"])._subscribers "k",
      g ∈ ["f", "g"]) ∧ ["f", "g"].length < 3 ∧
    ∃ m', publishFrom subscribeOnCall "k" 3 0
        ((init : PubSubManager String String).run [.subscribe "k" "f"]) =
        some (.ok (m'._subscribers "k") m') ∧
      ((init : PubSubManager String String).run [.subscribe "k" "f"])._subscribers "k" <+:
        m'._subscribers "k" ∧ (m'._subscribers "k").Nodup :=
  have hsub : ∀ fn c, Stmt.call c ∈ subscribeOnCall fn → ∃ k g, c = .subscribe k g :=
    fun fn c hc => by
      unfold subscribeOnCall at hc
      split at hc
      · cases List.mem_singleton.1 hc; exact ⟨"k", "g", rfl⟩
      · cases hc
  have hU : ∀ fn g, ∀ s ∈ subscribeOnCall fn, Call.subscribe "k" g ∈ s.calls → g ∈ ["f", "g"] :=
    fun fn g s hs hg => by
      unfold subscribeOnCall at hs
      split at hs
      · cases List.mem_singleton.1 hs
        cases List.mem_singleton.1 hg; simp
      · cases hs
  have hnd : (((init : PubSubManager String String).run
      [.subscribe "k" "f"])._subscribers "k").Nodup := by decide
  have hm : ∀ g ∈ ((init : PubSubManager String String).run [.subscribe "k" "f"])._subscribers "k",
      g ∈ ["f", "g"] := by decide
  ⟨hsub, hU, hnd, hm, by decide, publish_calls_final_list subscribeOnCall "k" ["f", "g"] hsub hU _
    hnd hm 3 (by decide)⟩

/-- There `publish('k')` calls `f`, then `g`, which `f` subscribed during the loop. -/
example : (publishFrom subscribeOnCall "k" 3 0
    ((init : PubSubManager String String).run [.subscribe "k" "f"])).map
      (fun r => match r with | .ok called _ => called | .error _ _ => []) = some ["f", "g"] := rfl

/-- `publish(key)` returns normally only if no list lost a function, it called exactly the key's
    final list in order, and no callback it called unsubscribed, outside a `try` block, itself
    from `key` or any function subscribed when `publish` started: the manager never removes a
    function, so such a call raises `TypeError` out of the callback and out of `publish`, and the
    subscribers after it are not called. -/
theorem publish_ok_no_unsubscribe (react : Fn → List (Stmt Key Fn)) (key : Key) (fuel : Nat)
    (m m' : PubSubManager Key Fn) (called : List Fn)
    (h : publishFrom react key fuel 0 m = some (.ok called m')) :
    (∀ k, m._subscribers k <+: m'._subscribers k) ∧ called = m'._subscribers key ∧
      ∀ fn ∈ called, ∀ k g, Stmt.call (.unsubscribe k g) ∈ react fn →
        g ∉ m._subscribers k ∧ (k = key → g ≠ fn) := by
  obtain ⟨hpre, hcalled, hunsub⟩ := publishFrom_ok react key fuel 0 m m' called h
  exact ⟨hpre, hcalled.trans (List.drop_zero _), hunsub⟩

/-- Callbacks that each unsubscribe themselves from `k` inside `try` and
    `except Exception: pass`. -/
def unsubscribeSelfCaught (fn : String) : List (Stmt String String) :=
  [.tryExcept [.unsubscribe "k" fn]]

/-- `f` subscribed to `k`, then `publish('k')` where `f` catches the `TypeError` of
    unsubscribing itself: the call returns normally and `f` stays subscribed. -/
theorem publish_ok_no_unsubscribe_f :
    publishFrom unsubscribeSelfCaught "k" 2 0
        ((init : PubSubManager String String).run [.subscribe "k" "f"]) =
      some (.ok ["f"] ((init : PubSubManager String String).run [.subscribe "k" "f"])) ∧
    (∀ k, ((init : PubSubManager String String).run [.subscribe "k" "f"])._subscribers k <+:
      ((init : PubSubManager String String).run [.subscribe "k" "f"])._subscribers k) ∧
    ["f"] = ((init : PubSubManager String String).run [.subscribe "k" "f"])._subscribers "k" ∧
    ∀ fn ∈ ["f"], ∀ k g, Stmt.call (.unsubscribe k g) ∈ unsubscribeSelfCaught fn →
      g ∉ ((init : PubSubManager String String).run [.subscribe "k" "f"])._subscribers k ∧
        (k = "k" → g ≠ fn) :=
  have h : publishFrom unsubscribeSelfCaught "k" 2 0
      ((init : PubSubManager String String).run [.subscribe "k" "f"]) =
      some (.ok ["f"] ((init : PubSubManager String String).run [.subscribe "k" "f"])) := rfl
  ⟨h, publish_ok_no_unsubscribe _ _ _ _ _ _ h⟩

/-- A callback `f` that unsubscribes itself outside a `try` block makes `publish('k')` raise
    `TypeError`. -/
example : (publishFrom (fun _ => [.call (.unsubscribe "k" "f")]) "k" 2 0
    ((init : PubSubManager String String).run [.subscribe "k" "f"])).map
      (fun r => match r with | .ok _ _ => none | .error e _ => some e) = some (some .typeError) :=
  rfl

end PubSubManager

end HathorCore
