import HathorCore.Wallet

/-! # Wallet: addresses handed out once

`get_unused_address(mark_as_used=True)` takes an address from `unused_keys`, discards it and
marks its key pair used. On a wallet whose set holds only addresses with an unused key pair
(`Registered` and `Accurate`), the address it returns was unused, and afterwards it is used; no
call but `read_keys_from_file` ever turns a used key pair back, provided the key generator does
not hand `generate_keys` an address the wallet already holds. So over any run that does not read
the key file, and whose generated addresses are new, the addresses handed out are pairwise
distinct (`unused_addresses_handed_out_once`). `handedOut` lists them. -/

namespace HathorCore

namespace Wallet

/-- The addresses of the key pairs a call creates if it calls `generate_keys`. -/
def Call.created : Call → List String
  | .generateKeys created => created
  | .getUnusedAddress _ created _ => created
  | _ => []

/-- The address a call returns from `get_unused_address(mark_as_used=True)`, if it returns. -/
def Call.handsOut (w : Wallet) : Call → Option String
  | .getUnusedAddress o created true =>
    match Wallet.getUnusedAddress o created true w with
    | .ok a _ => some a
    | .error _ _ => none
  | _ => none

/-- The addresses the calls of `get_unused_address(mark_as_used=True)` of a run return, in
    order. -/
def handedOut : Wallet → List Call → List String
  | _, [] => []
  | w, c :: calls => (c.handsOut w).toList ++ handedOut (w.apply c) calls

/-- The key pair of `x` in `w'` is that of `w`, or that one marked used. -/
def KeyKept (w w' : Wallet) (x : String) : Prop :=
  dictGet w'.keys x = dictGet w.keys x ∨
    ∃ kp, dictGet w.keys x = some kp ∧ dictGet w'.keys x = some { kp with used := true }

theorem KeyKept.refl (w : Wallet) (x : String) : KeyKept w w x := .inl rfl

theorem KeyKept.trans {w w' w'' : Wallet} {x : String} (h : KeyKept w w' x)
    (h' : KeyKept w' w'' x) : KeyKept w w'' x := by
  rcases h with h | ⟨kp, hkp, h⟩ <;> rcases h' with h' | ⟨kp', hkp', h'⟩
  · exact .inl (h'.trans h)
  · exact .inr ⟨kp', h ▸ hkp', h'⟩
  · exact .inr ⟨kp, hkp, h'.trans h⟩
  · rw [h, Option.some.injEq] at hkp'
    exact .inr ⟨kp, hkp, by rw [h', ← hkp']⟩

/-- A used key pair stays used. -/
theorem KeyKept.used {w w' : Wallet} {x : String} (h : KeyKept w w' x) {kp : KeyPair}
    (hkp : dictGet w.keys x = some kp) (hu : kp.used = true) :
    ∃ kp', dictGet w'.keys x = some kp' ∧ kp'.used = true := by
  rcases h with h | ⟨kp', hkp', h⟩
  · exact ⟨kp, h.trans hkp, hu⟩
  · exact ⟨_, h, rfl⟩

/-! ### One call -/

/-- `generate_keys` puts a new key pair under each created address and leaves the others. -/
theorem dictGet_generateKeys (created : List String) (w : Wallet) (x : String) :
    dictGet (after (generateKeys created w)).keys x =
      if x ∈ created then some (KeyPair.create x) else dictGet w.keys x := by
  show dictGet (created.foldl addKey w).keys x = _
  induction created generalizing w with
  | nil => rfl
  | cons a created ih =>
    rw [List.foldl_cons, ih]
    by_cases hc : x ∈ created
    · simp [hc]
    · by_cases hx : x = a
      · subst hx; simp [addKey, dictGet_setKey]
      · simp [hc, hx, addKey, dictGet_setKey]

theorem keyKept_markUsed (a : String) (w : Wallet) (x : String) :
    KeyKept w (after (markUsed a w)) x := by
  rw [KeyKept, after_markUsed_keys]
  by_cases hx : x = a
  · subst hx
    cases h : dictGet w.keys x with
    | none => exact .inl (by simp [h])
    | some kp => exact .inr ⟨kp, rfl, by simp [h]⟩
  · exact .inl (if_neg hx)

/-- The prelude of `get_unused_address`, which generates keys for an empty set, leaves `w` or
    what `generate_keys` leaves, whether it returns or raises. -/
theorem getUnusedAddress_prelude {created : List String} {w : Wallet}
    {r : EStateM.Result WalletError Wallet Unit}
    (h : (if w.unused_keys.length = 0 then
        (if truthy w.password then generateKeys created w else .error .outOfUnusedAddresses w)
      else .ok () w) = r) : after r = w ∨ after r = after (generateKeys created w) := by
  subst h; split_ifs
  exacts [.inr rfl, .inl rfl, .inl rfl]

/-- Outside the addresses it may create, `get_unused_address` changes a key pair only by
    marking it used. -/
theorem keyKept_getUnusedAddress (o : IterOrder) (created : List String) (m : Bool) (w : Wallet)
    {x : String} (hx : x ∉ created) : KeyKept w (after (getUnusedAddress o created m w)) x := by
  have kept : ∀ w₁, (w₁ = w ∨ w₁ = after (generateKeys created w)) → KeyKept w w₁ x := by
    rintro _ (rfl | rfl)
    exacts [.refl _ _, .inl ((dictGet_generateKeys created w x).trans (if_neg hx))]
  unfold getUnusedAddress
  split
  · exact kept _ (getUnusedAddress_prelude ‹_›)
  · rename_i w₁ hpre
    have h₁ := kept w₁ (getUnusedAddress_prelude hpre)
    split
    · exact h₁
    · rename_i a _
      cases m
      · exact h₁
      · have h₂ := keyKept_markUsed a { w₁ with unused_keys := setDiscard w₁.unused_keys a } x
        rw [if_pos rfl]
        split <;> rename_i heq <;> rw [heq] at h₂ <;> exact h₁.trans h₂

/-- A normal return of `get_unused_address(mark_as_used=True)`: on `w`, or on what
    `generate_keys` leaves, the address came first in the set's iteration order, and its key
    pair was marked used after the address was discarded. -/
theorem getUnusedAddress_true_ok {o : IterOrder} {created : List String} {w w' : Wallet}
    {a : String} (h : getUnusedAddress o created true w = .ok a w') :
    ∃ w₁, (w₁ = w ∨ w₁ = after (generateKeys created w)) ∧
      (o.iter w₁.unused_keys).head? = some a ∧
      markUsed a { w₁ with unused_keys := setDiscard w₁.unused_keys a } = .ok () w' := by
  unfold getUnusedAddress at h
  split at h
  · cases h
  · rename_i w₁ hpre
    split at h
    · cases h
    · rename_i address hhead
      rw [if_pos rfl] at h
      split at h
      · cases h
      · rename_i heq; cases h; exact ⟨w₁, getUnusedAddress_prelude hpre, hhead, heq⟩

/-- Outside the addresses it may create, a call other than `read_keys_from_file` changes a key
    pair only by marking it used. -/
theorem keyKept_apply (w : Wallet) :
    ∀ c : Call, c.readsFile = false → ∀ x ∉ c.created, KeyKept w (w.apply c) x
  | .generateKeys created, _, x, hx =>
    .inl ((dictGet_generateKeys created w x).trans (if_neg (show x ∉ created from hx)))
  | .getUnusedAddress o created m, _, _, hx => keyKept_getUnusedAddress o created m w hx
  | .tokensReceived address58, _, x, _ => by
    have h := keyKept_markUsed address58 w x
    simp only [apply, tokensReceived]
    split <;> rename_i heq <;> rw [heq] at h <;> exact h
  | .unlock decrypts password, _, _, _ => by
    simp only [apply, unlock]
    split
    · exact .refl _ _
    · split
      · split <;> exact .refl _ _
      · exact .refl _ _
  | .lock, _, _, _ => .refl _ _

/-- On a wallet keeping `Registered` and `Accurate`, an address `get_unused_address(True)`
    returns had no used key pair, unless it is one of the created ones, and has a used one
    afterwards. -/
theorem handsOut_spec {w : Wallet} (hr : w.Registered) (ha : w.Accurate) :
    ∀ (c : Call) {a : String}, c.handsOut w = some a →
      (a ∉ c.created → ∀ kp, dictGet w.keys a = some kp → kp.used = false) ∧
        ∃ kp, dictGet (w.apply c).keys a = some kp ∧ kp.used = true
  | .getUnusedAddress o created true, a, h => by
    simp only [Call.handsOut] at h
    split at h
    · rename_i w' heq
      cases h
      obtain ⟨w₁, hw₁, hhead, hmark⟩ := getUnusedAddress_true_ok heq
      have keeps : Keeps w w₁ := by
        rcases hw₁ with rfl | rfl
        exacts [Keeps.refl _, generateKeys_keeps created w]
      have hmem : a ∈ w₁.unused_keys :=
        (o.perm _).subset (List.mem_of_mem_head? hhead)
      obtain ⟨kp, hkp⟩ := keeps.2.1 hr a hmem
      have hunused := keeps.2.2 ha a hmem kp hkp
      rw [markUsed_eq] at hmark
      simp only [hkp] at hmark
      cases hmark
      refine ⟨fun hc kp' hkp' => ?_, { kp with used := true },
        by simp [apply, heq, after, dictGet_setKey], rfl⟩
      have hsame : dictGet w₁.keys a = dictGet w.keys a := by
        rcases hw₁ with rfl | rfl
        exacts [rfl, (dictGet_generateKeys created w a).trans (if_neg (show a ∉ created from hc))]
      rw [← hsame, hkp] at hkp'
      cases hkp'; exact hunused
    · cases h
  | .getUnusedAddress _ _ false, _, h => by simp [Call.handsOut] at h
  | .generateKeys _, _, h | .tokensReceived _, _, h | .unlock _ _, _, h | .lock, _, h
  | .readKeysFromFile _, _, h => by simp [Call.handsOut] at h

/-! ### Runs -/

/-- In any run that does not read the key file, from a wallet whose set holds only addresses
    with an unused key pair, and whose generated addresses are pairwise distinct and new to the
    wallet: the addresses `get_unused_address(mark_as_used=True)` returns are pairwise distinct,
    and none had a used key pair when the run started. -/
theorem unused_addresses_handed_out_once : ∀ (w : Wallet) (calls : List Call),
    w.Registered → w.Accurate → (∀ c ∈ calls, c.readsFile = false) →
    (calls.flatMap Call.created).Nodup →
    (∀ x ∈ calls.flatMap Call.created, dictGet w.keys x = none) →
    (handedOut w calls).Nodup ∧
      ∀ a ∈ handedOut w calls, ∀ kp, dictGet w.keys a = some kp → kp.used = false
  | _, [], _, _, _, _, _ => ⟨List.nodup_nil, by simp [handedOut]⟩
  | w, c :: calls, hr, ha, hfile, hnd, hfresh => by
    have hc := hfile c (List.mem_cons_self _ _)
    rw [List.flatMap_cons] at hnd hfresh
    have keeps := apply_keeps w c hc
    have hkept := keyKept_apply w c hc
    have created_new : ∀ x ∈ c.created, dictGet w.keys x = none := fun x hx =>
      hfresh x (List.mem_append_left _ hx)
    obtain ⟨ih_nd, ih_unused⟩ := unused_addresses_handed_out_once (w.apply c) calls
      (keeps.2.1 hr) (keeps.2.2 ha) (fun c' h => hfile c' (List.mem_cons_of_mem _ h))
      (List.nodup_append.1 hnd).2.1 fun x hx => by
        have hnew := hfresh x (List.mem_append_right _ hx)
        rcases hkept x fun h => (List.nodup_append.1 hnd).2.2 h hx with h | ⟨kp, hkp, -⟩
        · rw [h, hnew]
        · rw [hnew] at hkp; cases hkp
    -- an address handed out later was unused after this call, so it was unused before it
    have later : ∀ a ∈ handedOut (w.apply c) calls, ∀ kp, dictGet w.keys a = some kp →
        kp.used = false := fun a ha' kp hkp => by
      by_contra hu
      rw [Bool.not_eq_false] at hu
      have hac : a ∉ c.created := fun h => by rw [created_new a h] at hkp; cases hkp
      obtain ⟨kp', hkp', hu'⟩ := (hkept a hac).used hkp hu
      rw [ih_unused a ha' kp' hkp'] at hu'; cases hu'
    cases hout : c.handsOut w with
    | none => simpa [handedOut, hout] using And.intro ih_nd later
    | some a =>
      -- the address handed out now is used afterwards, so it is not handed out again
      obtain ⟨hfirst, kp, hkp, hu⟩ := handsOut_spec hr ha c hout
      have hnew : a ∉ handedOut (w.apply c) calls := fun h => by
        rw [ih_unused a h kp hkp] at hu; cases hu
      refine ⟨by simpa [handedOut, hout] using And.intro hnew ih_nd, fun b hb kp' hkp' => ?_⟩
      simp only [handedOut, hout, Option.toList_some, List.singleton_append, List.mem_cons] at hb
      rcases hb with rfl | hb
      · by_cases hac : b ∈ c.created
        · rw [created_new b hac] at hkp'; cases hkp'
        · exact hfirst hac kp' hkp'
      · exact later b hb kp' hkp'

/-- `Wallet({'A': ..., 'B': ...})` with both key pairs unused, then `get_unused_address()`
    twice. -/
theorem unused_addresses_handed_out_once_ab :
    (init [("A", ⟨"A", false⟩), ("B", ⟨"B", false⟩)] (by decide)).Registered ∧
    (init [("A", ⟨"A", false⟩), ("B", ⟨"B", false⟩)] (by decide)).Accurate ∧
    (∀ c ∈ [Call.getUnusedAddress .insertion [] true, .getUnusedAddress .insertion [] true],
      c.readsFile = false) ∧
    ([Call.getUnusedAddress .insertion [] true, .getUnusedAddress .insertion [] true].flatMap
      Call.created).Nodup ∧
    (∀ x ∈ [Call.getUnusedAddress .insertion [] true, .getUnusedAddress .insertion [] true].flatMap
      Call.created, dictGet (init [("A", ⟨"A", false⟩), ("B", ⟨"B", false⟩)] (by decide)).keys x =
        none) ∧
    (handedOut (init [("A", ⟨"A", false⟩), ("B", ⟨"B", false⟩)] (by decide))
        [.getUnusedAddress .insertion [] true, .getUnusedAddress .insertion [] true]).Nodup ∧
      ∀ a ∈ handedOut (init [("A", ⟨"A", false⟩), ("B", ⟨"B", false⟩)] (by decide))
          [.getUnusedAddress .insertion [] true, .getUnusedAddress .insertion [] true],
        ∀ kp, dictGet (init [("A", ⟨"A", false⟩), ("B", ⟨"B", false⟩)] (by decide)).keys a =
          some kp → kp.used = false :=
  have hinit := @init_tracks [("A", ⟨"A", false⟩), ("B", ⟨"B", false⟩)] (by decide)
    (by simp only [List.mem_cons, Prod.mk.injEq, List.mem_singleton, List.not_mem_nil, or_false]
        rintro a kp (⟨rfl, rfl⟩ | ⟨rfl, rfl⟩) <;> rfl)
  have hfile : ∀ c ∈ [Call.getUnusedAddress .insertion [] true, .getUnusedAddress .insertion [] true],
      c.readsFile = false := by simp [Call.readsFile]
  have hnd : ([Call.getUnusedAddress .insertion [] true, .getUnusedAddress .insertion [] true].flatMap
      Call.created).Nodup := by simp [Call.created]
  have hfresh : ∀ x ∈ [Call.getUnusedAddress .insertion [] true,
      .getUnusedAddress .insertion [] true].flatMap Call.created,
      dictGet (init [("A", ⟨"A", false⟩), ("B", ⟨"B", false⟩)] (by decide)).keys x = none := by
    simp [Call.created]
  ⟨hinit.2.1, hinit.2.2, hfile, hnd, hfresh,
    unused_addresses_handed_out_once _ _ hinit.2.1 hinit.2.2 hfile hnd hfresh⟩

/-- There the two calls hand out `A`, then `B`. -/
example : handedOut (init [("A", ⟨"A", false⟩), ("B", ⟨"B", false⟩)] (by decide))
    [.getUnusedAddress .insertion [] true, .getUnusedAddress .insertion [] true] = ["A", "B"] :=
  rfl

end Wallet

end HathorCore
