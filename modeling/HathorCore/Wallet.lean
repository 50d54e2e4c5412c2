import HathorCore.Python

/-! # Wallet: the unused addresses

`hathor/wallet/wallet.py`. A `Wallet` holds its key pairs in `keys`, a dict from base58 address
to `KeyPair`, and keeps in the set `unused_keys` the addresses it may still hand out;
`get_unused_address` hands one out. The design keeps `unused_keys` equal to the set of the
addresses whose key pair is not used, which is three facts: every unused key pair's address is
in the set (`Covered`), every address in the set has a key pair (`Registered`), and no address
in the set has a used key pair (`Accurate`).

Every call keeps the first, over any run. Every call keeps the second but a
`read_keys_from_file` that raises: its loop adds the address of each unused key pair to the set
as it reads it, so when `KeyPair.from_json` raises on a later item the addresses already added
stay, and `self.keys.update(new_keys)` never runs. Every call but `read_keys_from_file` keeps the
third: the loop adds the addresses of the unused key pairs of the file and removes none, while
`self.keys.update(new_keys)` replaces an unused key pair by a used one read back under the same
address.

`KeyPair` and the exceptions come from `hathor/wallet/keypair.py` and
`hathor/wallet/exceptions.py`; the model keeps what `wallet.py` reads of them. The key file (what
`KeyPair.from_json` returns or raises for each of its items), the key generator, the password
check and the iteration order of the set are the environment of a run, and each call takes its
part of it as arguments.
Writing the key file and publishing to the pub/sub manager are effects outside the state. -/

namespace HathorCore

/-- `hathor.wallet.keypair.KeyPair`: the wallet reads its `address` and its `used` flag. -/
structure KeyPair where
  address : String
  used : Bool
  deriving DecidableEq, Repr

/-- `KeyPair.create(password)`: a new key pair, not yet used, with the address its random key
    gives. -/
def KeyPair.create (address : String) : KeyPair := ⟨address, false⟩

/-- The exceptions the wallet's calls raise. -/
inductive WalletError where
  /-- `OutOfUnusedAddresses`. -/
  | outOfUnusedAddresses
  /-- `IncorrectPassword`, from `KeyPair.get_private_key`. -/
  | incorrectPassword
  | valueError (msg : String)
  | keyError (key : String)
  /-- `next` on an exhausted iterator. -/
  | stopIteration
  /-- What `open`, `json.loads` or `KeyPair.from_json` raises on a key file it cannot read. -/
  | readError
  deriving DecidableEq, Repr

/-- The argument of `unlock`, which it tests with `isinstance(password, bytes)`. -/
inductive Password where
  | bytes (value : List UInt8)
  | other
  deriving DecidableEq, Repr

/-- The attributes of a `Wallet` that these calls read and write: the dict `keys`, with its keys
    distinct; the set `unused_keys`; the `password`. -/
structure Wallet where
  keys : List (String × KeyPair)
  keys_nodup : (keys.map Prod.fst).Nodup
  unused_keys : List String
  password : Option (List UInt8)

/-- A call of the wallet: it reads and mutates the wallet and may raise, keeping the mutations
    made before the exception. -/
abbrev WalletM := EStateM WalletError Wallet

namespace Wallet

/-- The wallet a call leaves, whether it returns or raises. -/
def after {α : Type} : EStateM.Result WalletError Wallet α → Wallet
  | .ok _ w => w
  | .error _ w => w

/-- An iteration order of the set `unused_keys`, which the per-process string hash fixes:
    `iter s` lists the set whose items, in insertion order, are `s`. -/
structure IterOrder where
  iter : List String → List String
  perm : ∀ s, (iter s).Perm s

/-- Iteration in insertion order. -/
def IterOrder.insertion : IterOrder := ⟨fun s => s, fun s => List.Perm.refl s⟩

/-! ### The calls -/

/-- `Wallet(keys)`: `self.keys = keys or {}` and `unused_keys` the set of the addresses of the
    key pairs that are not used. -/
def init (keys : List (String × KeyPair)) (h : (keys.map Prod.fst).Nodup) : Wallet :=
  ⟨keys, h, pySet (((keys.map Prod.snd).filter fun kp => !kp.used).map KeyPair.address), none⟩

/-- `self.keys[address] = keypair`. -/
def setKey (w : Wallet) (address : String) (keypair : KeyPair) : Wallet :=
  { w with keys := dictSet w.keys address keypair, keys_nodup := nodup_keys_dictSet w.keys_nodup _ _ }

/-- `self.keys[address].used = True`, a `KeyError` for an address with no key pair. -/
def markUsed (address : String) : WalletM Unit := fun w =>
  match dictGet w.keys address with
  | none => .error (.keyError address) w
  | some keypair => .ok () (w.setKey address { keypair with used := true })

/-- One iteration of `generate_keys`, for the key pair `KeyPair.create` returns with address
    `address`. -/
def addKey (w : Wallet) (address : String) : Wallet :=
  { w.setKey address (KeyPair.create address) with unused_keys := setAdd w.unused_keys address }

/-- `Wallet.generate_keys(count)`, with `created` the addresses of the `count` key pairs it
    creates. -/
def generateKeys (created : List String) : WalletM Unit := fun w =>
  .ok () (created.foldl addKey w)

/-- Python's truth value of `self.password`: `None` and `b''` are false. -/
def truthy : Option (List UInt8) → Bool
  | some (_ :: _) => true
  | _ => false

/-- `Wallet.get_unused_address(mark_as_used)`, with `created` the addresses `generate_keys`
    creates if the set is empty; `next(iter(self.unused_keys))` takes the first address in the
    set's iteration order. -/
def getUnusedAddress (o : IterOrder) (created : List String) (mark_as_used : Bool) :
    WalletM String := fun w =>
  match (if w.unused_keys.length = 0 then
      (if truthy w.password then generateKeys created w else .error .outOfUnusedAddresses w)
    else .ok () w) with
  | .error e w => .error e w
  | .ok () w =>
    match (o.iter w.unused_keys).head? with
    | none => .error .stopIteration w
    | some address =>
      if mark_as_used then
        match markUsed address { w with unused_keys := setDiscard w.unused_keys address } with
        | .error e w => .error e w
        | .ok () w => .ok address w
      else .ok address w

/-- `Wallet.tokens_received(address58)`. -/
def tokensReceived (address58 : String) : WalletM Unit := fun w =>
  match markUsed address58 w with
  | .error e w => .error e w
  | .ok () w => .ok () { w with unused_keys := setDiscard w.unused_keys address58 }

/-- `Wallet.unlock(password)`; `decrypts keypair p` says whether `keypair.get_private_key(p)`
    returns. -/
def unlock (decrypts : KeyPair → List UInt8 → Bool) (password : Password) : WalletM Unit :=
  fun w =>
    match password with
    | .other => .error (.valueError "Password must be in bytes") w
    | .bytes p =>
      match w.keys with
      | (_, keypair) :: _ =>
        if decrypts keypair p then .ok () { w with password := some p }
        else .error .incorrectPassword w
      | [] => .ok () { w with password := some p }

/-- `Wallet.lock()`. -/
def lock : WalletM Unit := fun w => .ok () { w with password := none }

/-- The loop of `read_keys_from_file` over the items of the file, each given as what
    `KeyPair.from_json(data)` returns or raises. It fills the local dict `new_keys` and adds to
    `self.unused_keys` as it goes, so an exception partway leaves in the set the addresses added
    so far and drops `new_keys`. -/
def readLoop : List (Except WalletError KeyPair) → List (String × KeyPair) →
    WalletM (List (String × KeyPair))
  | [], new_keys => fun w => .ok new_keys w
  | .error e :: _, _ => fun w => .error e w
  | .ok keypair :: file, new_keys => fun w =>
    readLoop file (dictSet new_keys keypair.address keypair)
      (if !keypair.used then { w with unused_keys := setAdd w.unused_keys keypair.address } else w)

/-- `Wallet.read_keys_from_file()`, with `file` the outcome of `KeyPair.from_json` on each item
    of the JSON list; a failing `open` or `json.loads` is the file `[.error e]`. -/
def readKeysFromFile (file : List (Except WalletError KeyPair)) : WalletM Unit := fun w =>
  match readLoop file [] w with
  | .error e w => .error e w
  | .ok new_keys w => .ok () { w with
      keys := dictUpdate w.keys new_keys
      keys_nodup := nodup_keys_dictUpdate _ w.keys_nodup }

/-- The calls of a run after construction. -/
inductive Call where
  | generateKeys (created : List String)
  | getUnusedAddress (o : IterOrder) (created : List String) (mark_as_used : Bool)
  | tokensReceived (address58 : String)
  | unlock (decrypts : KeyPair → List UInt8 → Bool) (password : Password)
  | lock
  | readKeysFromFile (file : List (Except WalletError KeyPair))

/-- The wallet a call leaves, whether it returns or raises. -/
def apply (w : Wallet) : Call → Wallet
  | .generateKeys created => after (Wallet.generateKeys created w)
  | .getUnusedAddress o created mark_as_used =>
    after (Wallet.getUnusedAddress o created mark_as_used w)
  | .tokensReceived address58 => after (Wallet.tokensReceived address58 w)
  | .unlock decrypts password => after (Wallet.unlock decrypts password w)
  | .lock => after (Wallet.lock w)
  | .readKeysFromFile file => after (Wallet.readKeysFromFile file w)

/-- A run of calls; an exception does not end it. -/
def run (w : Wallet) (calls : List Call) : Wallet := calls.foldl apply w

/-- A wallet some run reaches from one constructed with a keys map whose keys are the addresses
    of their key pairs. -/
def Reachable (w : Wallet) : Prop :=
  ∃ keys h calls, (∀ a keypair, (a, keypair) ∈ keys → keypair.address = a) ∧
    run (init keys h) calls = w

/-! ### The invariant, address by address -/

/-- An unused key pair of `a` puts `a` in `unused_keys`. -/
def CoveredAt (w : Wallet) (a : String) : Prop :=
  ∀ keypair, dictGet w.keys a = some keypair → keypair.used = false → a ∈ w.unused_keys

/-- `a` in `unused_keys` has a key pair. -/
def RegisteredAt (w : Wallet) (a : String) : Prop :=
  a ∈ w.unused_keys → ∃ keypair, dictGet w.keys a = some keypair

/-- `a` in `unused_keys` has no used key pair. -/
def AccurateAt (w : Wallet) (a : String) : Prop :=
  a ∈ w.unused_keys → ∀ keypair, dictGet w.keys a = some keypair → keypair.used = false

/-- Every address whose key pair is not used is in `unused_keys`. -/
def Covered (w : Wallet) : Prop := ∀ a, w.CoveredAt a

/-- Every address in `unused_keys` has a key pair. -/
def Registered (w : Wallet) : Prop := ∀ a, w.RegisteredAt a

/-- No address in `unused_keys` has a used key pair. -/
def Accurate (w : Wallet) : Prop := ∀ a, w.AccurateAt a

/-- The three halves together say that `unused_keys` is the set of the addresses whose key pair
    is not used. -/
theorem mem_unused_iff {w : Wallet} (hc : w.Covered) (hr : w.Registered) (ha : w.Accurate)
    (a : String) :
    a ∈ w.unused_keys ↔ ∃ keypair, dictGet w.keys a = some keypair ∧ keypair.used = false :=
  ⟨fun h => let ⟨kp, hkp⟩ := hr a h; ⟨kp, hkp, ha a h kp hkp⟩, fun ⟨kp, hkp, hu⟩ => hc a kp hkp hu⟩

/-- `w'` keeps each half of the invariant that `w` has. -/
def Keeps (w w' : Wallet) : Prop :=
  (w.Covered → w'.Covered) ∧ (w.Registered → w'.Registered) ∧ (w.Accurate → w'.Accurate)

theorem Keeps.refl (w : Wallet) : Keeps w w := ⟨id, id, id⟩

theorem Keeps.trans {w w' w'' : Wallet} (h : Keeps w w') (h' : Keeps w' w'') : Keeps w w'' :=
  ⟨h'.1 ∘ h.1, h'.2.1 ∘ h.2.1, h'.2.2 ∘ h.2.2⟩

theorem keeps_of_same {w w' : Wallet} (hk : w'.keys = w.keys) (hu : w'.unused_keys = w.unused_keys) :
    Keeps w w' := by
  unfold Keeps Covered Registered Accurate CoveredAt RegisteredAt AccurateAt
  rw [hk, hu]; exact ⟨id, id, id⟩

/-- A change at the one address `a` that leaves the invariant true at `a` keeps it. -/
theorem keeps_of_agree {w w' : Wallet} (a : String)
    (hagree : ∀ x ≠ a, dictGet w'.keys x = dictGet w.keys x ∧
      (x ∈ w'.unused_keys ↔ x ∈ w.unused_keys))
    (hc : w'.CoveredAt a) (hr : w'.RegisteredAt a) (ha : w'.AccurateAt a) : Keeps w w' := by
  refine ⟨fun h x => ?_, fun h x => ?_, fun h x => ?_⟩ <;> by_cases hx : x = a
  all_goals first
    | (subst hx; assumption)
    | (unfold CoveredAt RegisteredAt AccurateAt at *
       rw [(hagree x hx).1, (hagree x hx).2]; exact h x)

/-! ### One call -/

theorem init_tracks {keys : List (String × KeyPair)} (h : (keys.map Prod.fst).Nodup)
    (hkeys : ∀ a keypair, (a, keypair) ∈ keys → keypair.address = a) :
    (init keys h).Covered ∧ (init keys h).Registered ∧ (init keys h).Accurate := by
  have mem : ∀ a, a ∈ (init keys h).unused_keys ↔ ∃ kp, (a, kp) ∈ keys ∧ kp.used = false := by
    intro a
    simp only [init, mem_pySet, List.mem_map, List.mem_filter, Bool.not_eq_true', Prod.exists,
      exists_and_right, exists_eq_right]
    constructor
    · rintro ⟨kp, ⟨⟨k, hk⟩, hu⟩, rfl⟩
      exact ⟨kp, by rwa [← hkeys k kp hk] at hk, hu⟩
    · rintro ⟨kp, hkp, hu⟩
      exact ⟨kp, ⟨⟨a, hkp⟩, hu⟩, hkeys a kp hkp⟩
  refine ⟨fun a kp hkp hu => (mem a).2 ⟨kp, mem_of_dictGet hkp, hu⟩, fun a ha => ?_,
    fun a ha kp hkp => ?_⟩
  · obtain ⟨kp, hkp, -⟩ := (mem a).1 ha
    exact ⟨kp, dictGet_of_mem h hkp⟩
  · obtain ⟨kp', hkp', hu⟩ := (mem a).1 ha
    have hkp : dictGet keys a = some kp := hkp
    rw [dictGet_of_mem h hkp'] at hkp
    cases hkp; exact hu

theorem dictGet_setKey (w : Wallet) (a : String) (keypair : KeyPair) (x : String) :
    dictGet (w.setKey a keypair).keys x = if x = a then some keypair else dictGet w.keys x :=
  dictGet_dictSet _ _ _ _

theorem addKey_keeps (w : Wallet) (a : String) : Keeps w (w.addKey a) := by
  refine keeps_of_agree a (fun x hx => ?_) (fun _ _ _ => ?_) (fun _ => ?_) (fun _ kp hkp => ?_)
  · simp [addKey, dictGet_setKey, hx]
  · simp [addKey]
  · exact ⟨KeyPair.create a, by simp [addKey, dictGet_setKey]⟩
  · simp only [addKey, dictGet_setKey, if_pos rfl] at hkp
    cases hkp; rfl

theorem generateKeys_keeps (created : List String) (w : Wallet) :
    Keeps w (after (generateKeys created w)) := by
  show Keeps w (created.foldl addKey w)
  induction created generalizing w with
  | nil => exact Keeps.refl w
  | cons a created ih => exact (addKey_keeps w a).trans (ih _)

/-- Marking the key pair of `a` used and discarding `a` from the set, in either order, keeps the
    invariant, also when `a` has no key pair and the marking raises. -/
theorem retire_keeps (a : String) {w w' : Wallet}
    (hkeys : dictGet w'.keys a = (dictGet w.keys a).map fun kp => { kp with used := true })
    (hother : ∀ x ≠ a, dictGet w'.keys x = dictGet w.keys x)
    (hunused : w'.unused_keys = setDiscard w.unused_keys a) : Keeps w w' := by
  refine keeps_of_agree a (fun x hx => ⟨hother x hx, by simp [hunused, hx]⟩)
    (fun kp hkp hu => ?_) (fun h => ?_) (fun h => ?_)
  · rw [hkeys] at hkp
    obtain ⟨kp, -, rfl⟩ := Option.map_eq_some'.1 hkp
    cases hu
  all_goals simp [hunused] at h

theorem markUsed_eq (a : String) (w : Wallet) :
    markUsed a w = match dictGet w.keys a with
      | none => .error (.keyError a) w
      | some keypair => .ok () (w.setKey a { keypair with used := true }) := rfl

theorem after_markUsed_keys (a : String) (w : Wallet) (x : String) :
    dictGet (after (markUsed a w)).keys x =
      if x = a then (dictGet w.keys a).map fun kp => { kp with used := true }
      else dictGet w.keys x := by
  rw [markUsed_eq]
  cases h : dictGet w.keys a with
  | none => by_cases hx : x = a <;> simp [after, hx, h]
  | some kp => by_cases hx : x = a <;> simp [after, dictGet_setKey, hx]

theorem after_markUsed_unused (a : String) (w : Wallet) :
    (after (markUsed a w)).unused_keys = w.unused_keys := by
  rw [markUsed_eq]; split <;> rfl

theorem tokensReceived_keeps (address58 : String) (w : Wallet) :
    Keeps w (after (tokensReceived address58 w)) := by
  unfold tokensReceived; rw [markUsed_eq]
  cases h : dictGet w.keys address58 with
  | none => exact Keeps.refl w
  | some kp =>
    exact retire_keeps address58 (by simp [after, dictGet_setKey, h])
      (fun x hx => by simp [after, dictGet_setKey, hx]) (by simp [after, setKey])

/-- `get_unused_address` discards the address from the set, then marks its key pair used. -/
theorem discardThenMark_keeps (a : String) (w : Wallet) :
    Keeps w (after (markUsed a { w with unused_keys := setDiscard w.unused_keys a })) :=
  retire_keeps a (by rw [after_markUsed_keys, if_pos rfl])
    (fun x hx => by rw [after_markUsed_keys, if_neg hx]) (by rw [after_markUsed_unused])

theorem getUnusedAddress_keeps (o : IterOrder) (created : List String) (mark_as_used : Bool)
    (w : Wallet) : Keeps w (after (getUnusedAddress o created mark_as_used w)) := by
  have first : Keeps w (after (if w.unused_keys.length = 0 then
      (if truthy w.password then generateKeys created w else .error .outOfUnusedAddresses w)
      else .ok () w)) := by
    split_ifs
    · exact generateKeys_keeps created w
    · exact Keeps.refl w
    · exact Keeps.refl w
  unfold getUnusedAddress
  split
  · rename_i heq; rw [heq] at first; exact first
  · rename_i w₁ heq
    rw [heq] at first
    refine (first : Keeps w w₁).trans ?_
    split
    · exact Keeps.refl w₁
    · split
      · have := discardThenMark_keeps ‹String› w₁
        split <;> rename_i heq' <;> rw [heq'] at this <;> exact this
      · exact Keeps.refl w₁

theorem unlock_keeps (decrypts : KeyPair → List UInt8 → Bool) (password : Password) (w : Wallet) :
    Keeps w (after (unlock decrypts password w)) := by
  unfold unlock
  split
  · exact Keeps.refl w
  · split
    · split <;> exact keeps_of_same rfl rfl
    · exact keeps_of_same rfl rfl

theorem lock_keeps (w : Wallet) : Keeps w (after (lock w)) := keeps_of_same rfl rfl

/-! ### Reading the key file -/

/-- The key pairs `KeyPair.from_json` returns for the items of the file, up to the first item it
    raises on. -/
def parsedKeys : List (Except WalletError KeyPair) → List KeyPair
  | [] => []
  | .error _ :: _ => []
  | .ok keypair :: file => keypair :: parsedKeys file

/-- Whether `KeyPair.from_json` returns on every item of the file. -/
def parsesAll (file : List (Except WalletError KeyPair)) : Bool := file.all Except.isOk

/-- Whether it returns or raises, the loop changes no key pair of the wallet, and the set gains
    the addresses of the unused key pairs read before that and loses none. -/
theorem readLoop_after : ∀ (file : List (Except WalletError KeyPair))
    (new_keys : List (String × KeyPair)) (w : Wallet),
    (after (readLoop file new_keys w)).keys = w.keys ∧
      ∀ a, a ∈ (after (readLoop file new_keys w)).unused_keys ↔
        a ∈ w.unused_keys ∨ ∃ kp ∈ parsedKeys file, kp.address = a ∧ kp.used = false
  | [], _, _ => ⟨rfl, fun _ => by simp [parsedKeys, readLoop, after]⟩
  | .error _ :: _, _, _ => ⟨rfl, fun _ => by simp [parsedKeys, readLoop, after]⟩
  | .ok kp₀ :: file, new_keys, w => by
    obtain ⟨hk, hm⟩ := readLoop_after file (dictSet new_keys kp₀.address kp₀)
      (if !kp₀.used then { w with unused_keys := setAdd w.unused_keys kp₀.address } else w)
    simp only [readLoop, hk, hm]
    cases hu : kp₀.used <;> simp [hu, parsedKeys, or_assoc, @eq_comm _ _ kp₀.address]

/-- When the loop returns, each key pair it read in is one of the file's, under its own address,
    or one it started with; every address it started with or read has a key pair; and its keys
    stay distinct. -/
theorem readLoop_ok : ∀ (file : List (Except WalletError KeyPair))
    (new_keys : List (String × KeyPair)) (w : Wallet) {new_keys' : List (String × KeyPair)}
    {w' : Wallet}, readLoop file new_keys w = .ok new_keys' w' →
    (∀ a kp, dictGet new_keys' a = some kp →
      (kp ∈ parsedKeys file ∧ kp.address = a) ∨ dictGet new_keys a = some kp) ∧
    (∀ a, ((∃ kp, dictGet new_keys a = some kp) ∨ ∃ kp ∈ parsedKeys file, kp.address = a) →
      ∃ kp, dictGet new_keys' a = some kp) ∧
    ((new_keys.map Prod.fst).Nodup → (new_keys'.map Prod.fst).Nodup)
  | [], _, _, _, _, h => by
    cases h; exact ⟨fun _ _ h => .inr h, fun _ h => by simpa [parsedKeys] using h, id⟩
  | .error _ :: _, _, _, _, _, h => by cases h
  | .ok kp₀ :: file, new_keys, _, _, _, h => by
    obtain ⟨h₁, h₂, h₃⟩ := readLoop_ok file _ _ h
    refine ⟨fun a kp h => ?_, fun a h => h₂ a ?_, fun hn => h₃ (nodup_keys_dictSet hn _ _)⟩
    · rcases h₁ a kp h with ⟨hm, ha⟩ | h
      · exact .inl ⟨List.mem_cons_of_mem _ hm, ha⟩
      · rw [dictGet_dictSet] at h
        split at h
        · rename_i ha; cases h; exact .inl ⟨List.mem_cons_self _ _, ha.symm⟩
        · exact .inr h
    · by_cases ha : a = kp₀.address
      · exact .inl ⟨kp₀, by simp [ha]⟩
      · rcases h with ⟨kp, hkp⟩ | ⟨kp, hkp, hka⟩
        · exact .inl ⟨kp, by simp [ha, hkp]⟩
        · rcases List.mem_cons.1 hkp with rfl | hkp
          · exact absurd hka.symm ha
          · exact .inr ⟨kp, hkp, hka⟩

/-- The loop returns when every item parses. -/
theorem readLoop_returns : ∀ (file : List (Except WalletError KeyPair))
    (new_keys : List (String × KeyPair)) (w : Wallet), parsesAll file = true →
    ∃ new_keys' w', readLoop file new_keys w = .ok new_keys' w'
  | [], new_keys, w, _ => ⟨new_keys, w, rfl⟩
  | .error _ :: _, _, _, h => by simp [parsesAll, Except.isOk, Except.toBool] at h
  | .ok _ :: file, _, _, h =>
    readLoop_returns file _ _ (by simpa [parsesAll, Except.isOk, Except.toBool] using h)

/-- What `read_keys_from_file` leaves, whether it returns or raises: each key pair of the wallet
    is one read from the file under its own address or one it had; the set gains the addresses of
    the unused key pairs read and loses none. When every item parses, every address it had or
    read has a key pair. -/
theorem readKeysFromFile_spec (file : List (Except WalletError KeyPair)) (w : Wallet) :
    (∀ a kp, dictGet (after (readKeysFromFile file w)).keys a = some kp →
      (kp ∈ parsedKeys file ∧ kp.address = a) ∨ dictGet w.keys a = some kp) ∧
    (∀ a, a ∈ (after (readKeysFromFile file w)).unused_keys ↔
      a ∈ w.unused_keys ∨ ∃ kp ∈ parsedKeys file, kp.address = a ∧ kp.used = false) ∧
    (parsesAll file = true →
      ∀ a, ((∃ kp, dictGet w.keys a = some kp) ∨ ∃ kp ∈ parsedKeys file, kp.address = a) →
        ∃ kp, dictGet (after (readKeysFromFile file w)).keys a = some kp) := by
  obtain ⟨hk, hm⟩ := readLoop_after file [] w
  unfold readKeysFromFile
  split <;> rename_i x w' heq <;> rw [heq] at hk hm
  · -- it raised: the key pairs are the wallet's
    refine ⟨fun a kp hkp => .inr (hk ▸ hkp), hm, fun hp => ?_⟩
    obtain ⟨_, _, h⟩ := readLoop_returns file [] w hp
    rw [h] at heq; cases heq
  · -- it returned: the key pairs read update the wallet's
    obtain ⟨h₁, h₂, h₃⟩ := readLoop_ok file [] w heq
    have hget : ∀ a, dictGet (dictUpdate w'.keys x) a = (dictGet x a).or (dictGet w.keys a) :=
      fun a => (show w'.keys = w.keys from hk) ▸ dictGet_dictUpdate a (h₃ List.nodup_nil)
    refine ⟨fun a kp hkp => ?_, hm, fun _ a ha => ?_⟩
    · rcases Option.or_eq_some.1 ((hget a).symm.trans hkp) with hn | ⟨-, hw⟩
      · exact (h₁ a kp hn).imp_right fun h => by simp [dictGet] at h
      · exact .inr hw
    · change ∃ kp, dictGet (dictUpdate w'.keys x) a = _
      rw [hget]
      rcases ha with ⟨kp, hkp⟩ | ha
      · cases dictGet x a <;> simp [hkp]
      · obtain ⟨kp', hkp'⟩ := h₂ a (.inr ha)
        simp [hkp']

/-- `read_keys_from_file` keeps `Covered` whether it returns or raises, and keeps `Registered`
    when every item of the file parses. -/
theorem readKeysFromFile_tracks (file : List (Except WalletError KeyPair)) (w : Wallet) :
    (w.Covered → (after (readKeysFromFile file w)).Covered) ∧
      (parsesAll file = true → w.Registered → (after (readKeysFromFile file w)).Registered) := by
  obtain ⟨hkeys, hmem, hreg⟩ := readKeysFromFile_spec file w
  refine ⟨fun hc a kp hkp hu => (hmem a).2 ?_, fun hp hr a ha => hreg hp a ?_⟩
  · rcases hkeys a kp hkp with ⟨hm, ha⟩ | h
    exacts [.inr ⟨kp, hm, ha, hu⟩, .inl (hc a kp h hu)]
  · rcases (hmem a).1 ha with ha | ⟨kp, hkp, hka, -⟩
    exacts [.inl (hr a ha), .inr ⟨kp, hkp, hka⟩]

/-! ### Runs -/

/-- Whether the call is `read_keys_from_file`. -/
def Call.readsFile : Call → Bool
  | .readKeysFromFile _ => true
  | _ => false

/-- Whether `KeyPair.from_json` returns on every item the call reads: true of every call but a
    `read_keys_from_file` that raises partway. -/
def Call.parses : Call → Bool
  | .readKeysFromFile file => parsesAll file
  | _ => true

theorem apply_keeps (w : Wallet) : ∀ c : Call, c.readsFile = false → Keeps w (w.apply c)
  | .generateKeys created, _ => generateKeys_keeps created w
  | .getUnusedAddress o created mark_as_used, _ => getUnusedAddress_keeps o created mark_as_used w
  | .tokensReceived address58, _ => tokensReceived_keeps address58 w
  | .unlock decrypts password, _ => unlock_keeps decrypts password w
  | .lock, _ => lock_keeps w

theorem apply_tracks (w : Wallet) (c : Call) :
    (w.Covered → (w.apply c).Covered) ∧
      (c.parses = true → w.Registered → (w.apply c).Registered) := by
  cases c
  case readKeysFromFile file => exact readKeysFromFile_tracks file w
  all_goals exact ⟨(apply_keeps w _ (by rfl)).1, fun _ => (apply_keeps w _ (by rfl)).2.1⟩

/-- Every run keeps `Covered`, and every run whose key files parse keeps `Registered`. -/
theorem run_tracks : ∀ (w : Wallet) (calls : List Call),
    (w.Covered → (w.run calls).Covered) ∧
      ((∀ c ∈ calls, c.parses = true) → w.Registered → (w.run calls).Registered)
  | _, [] => ⟨id, fun _ => id⟩
  | w, c :: calls =>
    have ih := run_tracks (w.apply c) calls
    ⟨fun hc => ih.1 ((apply_tracks w c).1 hc), fun hp hr =>
      ih.2 (fun c' h => hp c' (List.mem_cons_of_mem _ h))
        ((apply_tracks w c).2 (hp c (List.mem_cons_self _ _)) hr)⟩

/-- A run that does not read the key file keeps the whole invariant. -/
theorem run_keeps : ∀ (w : Wallet) (calls : List Call), (∀ c ∈ calls, c.readsFile = false) →
    Keeps w (w.run calls)
  | w, [], _ => Keeps.refl w
  | w, c :: calls, h => (apply_keeps w c (h c (List.mem_cons_self _ _))).trans
    (run_keeps (w.apply c) calls fun c hc => h c (List.mem_cons_of_mem _ hc))

/-- The invariant over whole runs. From a wallet constructed with a keys map whose keys are their
    key pairs' addresses, every run leaves each address with an unused key pair in `unused_keys`;
    a run whose key files parse also gives every address of `unused_keys` a key pair; and a run
    that never reads the key file keeps `unused_keys` exactly the set of the addresses whose key
    pair is unused. -/
theorem unused_keys_over_runs (keys : List (String × KeyPair)) (h : (keys.map Prod.fst).Nodup)
    (hkeys : ∀ a keypair, (a, keypair) ∈ keys → keypair.address = a) (calls : List Call) :
    (run (init keys h) calls).Covered ∧
      ((∀ c ∈ calls, c.parses = true) → (run (init keys h) calls).Registered) ∧
      ((∀ c ∈ calls, c.readsFile = false) → ∀ a, a ∈ (run (init keys h) calls).unused_keys ↔
        ∃ keypair, dictGet (run (init keys h) calls).keys a = some keypair ∧
          keypair.used = false) := by
  obtain ⟨hc, hr, ha⟩ := init_tracks h hkeys
  refine ⟨(run_tracks _ calls).1 hc, fun hp => (run_tracks _ calls).2 hp hr, fun hno => ?_⟩
  obtain ⟨hc', hr', ha'⟩ := run_keeps _ calls hno
  exact mem_unused_iff (hc' hc) (hr' hr) (ha' ha)

theorem unused_keys_over_runs_a :
    (run (init [("A", ⟨"A", false⟩)] (by decide)) [.tokensReceived "A", .lock]).Covered ∧
      (run (init [("A", ⟨"A", false⟩)] (by decide)) [.tokensReceived "A", .lock]).Registered ∧
      ∀ a, a ∈ (run (init [("A", ⟨"A", false⟩)] (by decide))
          [.tokensReceived "A", .lock]).unused_keys ↔
        ∃ keypair, dictGet (run (init [("A", ⟨"A", false⟩)] (by decide))
          [.tokensReceived "A", .lock]).keys a = some keypair ∧ keypair.used = false :=
  have h := unused_keys_over_runs [("A", ⟨"A", false⟩)] (by decide) (by simp)
    [.tokensReceived "A", .lock]
  ⟨h.1, h.2.1 (by simp [Call.parses]), h.2.2 (by simp [Call.readsFile])⟩

/-- A key file whose second item does not parse: `B`, added to the set before the exception,
    stays there with no key pair. -/
example : "B" ∈ (run (init [] (by decide))
      [.readKeysFromFile [.ok ⟨"B", false⟩, .error .readError]]).unused_keys ∧
    dictGet (run (init [] (by decide))
      [.readKeysFromFile [.ok ⟨"B", false⟩, .error .readError]]).keys "B" = none := by
  decide

/-! ### A used key pair read back -/

/-- `Wallet({'A': KeyPair('A', used=False)})`, then `read_keys_from_file()` on a key file that
    holds `A`'s key pair marked used: `A` keeps its place in `unused_keys` with a used key pair,
    and `get_unused_address()` hands it out, in every iteration order of the set. -/
theorem reloaded_used_address_handed_out (o : IterOrder) :
    Reachable (run (init [("A", ⟨"A", false⟩)] (by decide)) [.readKeysFromFile [.ok ⟨"A", true⟩]]) ∧
    dictGet (run (init [("A", ⟨"A", false⟩)] (by decide))
      [.readKeysFromFile [.ok ⟨"A", true⟩]]).keys "A" = some ⟨"A", true⟩ ∧
    ∃ w', getUnusedAddress o [] true
      (run (init [("A", ⟨"A", false⟩)] (by decide)) [.readKeysFromFile [.ok ⟨"A", true⟩]]) =
        .ok "A" w' := by
  have hiter : o.iter ["A"] = ["A"] := List.perm_singleton.1 (o.perm ["A"])
  refine ⟨⟨_, _, _, by simp, rfl⟩, rfl, ⟨[("A", ⟨"A", true⟩)], by decide, [], none⟩, ?_⟩
  show getUnusedAddress o [] true ⟨[("A", ⟨"A", true⟩)], by decide, ["A"], none⟩ = _
  simp [getUnusedAddress, hiter, markUsed, dictGet]
  rfl

end Wallet

end HathorCore
