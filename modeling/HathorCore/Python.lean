import Mathlib.Data.List.Dedup

/-! # Python containers

The containers of the Python sources, as the models of `hathor` use them. A set is a list
without duplicates whose order is its iteration order; `set.add` is `setAdd` and `set.discard`
is `setDiscard`. A dict with string keys is an association list, assigned by `dictSet`, which
keeps the position of a key that is already present, as CPython's insertion-ordered dict does.
`lst[i] = v` is `pySetItem`, with Python's negative indices and its `IndexError`. -/

namespace HathorCore

/-! ### Sets -/

/-- `s.add(x)` on a set kept as its iteration order. -/
def setAdd {α : Type} [DecidableEq α] (s : List α) (x : α) : List α :=
  if x ∈ s then s else s ++ [x]

@[simp] theorem mem_setAdd {α : Type} [DecidableEq α] (s : List α) (x y : α) :
    y ∈ setAdd s x ↔ y ∈ s ∨ y = x := by
  unfold setAdd; split <;> simp_all [or_iff_left_of_imp]

theorem setAdd_of_mem {α : Type} [DecidableEq α] {s : List α} {x : α} (h : x ∈ s) :
    setAdd s x = s := if_pos h

theorem setAdd_of_not_mem {α : Type} [DecidableEq α] {s : List α} {x : α} (h : x ∉ s) :
    setAdd s x = s ++ [x] := if_neg h

theorem setAdd_setAdd {α : Type} [DecidableEq α] (s : List α) (x : α) :
    setAdd (setAdd s x) x = setAdd s x :=
  setAdd_of_mem (by simp)

theorem nodup_setAdd {α : Type} [DecidableEq α] {s : List α} (h : s.Nodup) (x : α) :
    (setAdd s x).Nodup := by
  unfold setAdd; split
  · exact h
  · exact h.append (List.nodup_singleton x) (by simpa)

/-- `s.discard(x)`. -/
def setDiscard {α : Type} [DecidableEq α] (s : List α) (x : α) : List α :=
  s.filter (· ≠ x)

@[simp] theorem mem_setDiscard {α : Type} [DecidableEq α] (s : List α) (x y : α) :
    y ∈ setDiscard s x ↔ y ∈ s ∧ y ≠ x := by
  simp [setDiscard]

/-- `set(xs)`: the items of `xs`, added in order. -/
def pySet {α : Type} [DecidableEq α] (xs : List α) : List α :=
  xs.foldl setAdd []

theorem mem_foldl_setAdd {α : Type} [DecidableEq α] (y : α) :
    ∀ (xs acc : List α), y ∈ xs.foldl setAdd acc ↔ y ∈ acc ∨ y ∈ xs
  | [], _ => by simp
  | x :: xs, acc => by
    rw [List.foldl_cons, mem_foldl_setAdd y xs, mem_setAdd, List.mem_cons]; tauto

@[simp] theorem mem_pySet {α : Type} [DecidableEq α] (xs : List α) (y : α) :
    y ∈ pySet xs ↔ y ∈ xs := by
  simp [pySet, mem_foldl_setAdd]

/-! ### Dicts -/

/-- `d[k]` on a dict kept as its insertion-ordered list of items; `none` is a `KeyError`. -/
def dictGet {β : Type} : List (String × β) → String → Option β
  | [], _ => none
  | e :: d, k => if e.1 = k then some e.2 else dictGet d k

/-- `d[k] = v` on a dict kept as its insertion-ordered list of items. -/
def dictSet {β : Type} (d : List (String × β)) (k : String) (v : β) : List (String × β) :=
  if k ∈ d.map Prod.fst then d.map (fun e => if e.1 = k then (k, v) else e) else d ++ [(k, v)]

theorem dictGet_eq_none {β : Type} {d : List (String × β)} {k : String} :
    dictGet d k = none ↔ k ∉ d.map Prod.fst := by
  induction d with
  | nil => simp [dictGet]
  | cons e d ih =>
    obtain ⟨a, b⟩ := e
    by_cases h : a = k
    · simp [dictGet, h]
    · simpa [dictGet, h, Ne.symm h] using ih

theorem dictGet_append {β : Type} (d d' : List (String × β)) (k : String) :
    dictGet (d ++ d') k = (dictGet d k).or (dictGet d' k) := by
  induction d with
  | nil => simp [dictGet]
  | cons e d ih => by_cases h : e.1 = k <;> simp [dictGet, h, ih]

theorem dictGet_map_replace {β : Type} (d : List (String × β)) (k k' : String) (v : β) :
    dictGet (d.map (fun e => if e.1 = k then (k, v) else e)) k' =
      if k' = k ∧ k ∈ d.map Prod.fst then some v else dictGet d k' := by
  induction d with
  | nil => simp [dictGet]
  | cons e d ih =>
    obtain ⟨a, b⟩ := e
    by_cases h : a = k
    · subst h
      by_cases h' : k' = a
      · simp [dictGet, h']
      · simp [dictGet, h', Ne.symm h', ih]
    · by_cases h' : k' = k
      · subst h'
        simp only [List.map_cons, dictGet, h, if_false, ih, List.mem_cons, Ne.symm h, false_or]
      · simp [dictGet, h, h', ih]

theorem keys_dictSet {β : Type} (d : List (String × β)) (k : String) (v : β) :
    (dictSet d k v).map Prod.fst = if k ∈ d.map Prod.fst then d.map Prod.fst
      else d.map Prod.fst ++ [k] := by
  unfold dictSet; split
  · simp only [List.map_map]; congr 1; funext e; by_cases h : e.1 = k <;> simp [h]
  · simp

@[simp] theorem dictGet_dictSet {β : Type} (d : List (String × β)) (k k' : String) (v : β) :
    dictGet (dictSet d k v) k' = if k' = k then some v else dictGet d k' := by
  unfold dictSet; split
  · rw [dictGet_map_replace]; by_cases h : k' = k <;> simp_all
  · rw [dictGet_append]
    by_cases h : k' = k
    · subst h; simp_all [dictGet_eq_none.mpr, dictGet]
    · simp [h, Ne.symm h, dictGet]

/-- Every item of `d` after `d[k] = v` that has key `k` is `(k, v)`. -/
theorem eq_of_mem_dictSet {β : Type} {d : List (String × β)} {k : String} {v : β}
    {e : String × β} (he : e ∈ dictSet d k v) (hk : e.1 = k) : e = (k, v) := by
  unfold dictSet at he; split at he
  · obtain ⟨e₀, -, rfl⟩ := List.mem_map.1 he
    by_cases h : e₀.1 = k <;> simp_all
  · rcases List.mem_append.1 he with he | he
    · exact absurd (hk ▸ List.mem_map_of_mem Prod.fst he) ‹_›
    · exact List.eq_of_mem_singleton he

theorem dictSet_dictSet {β : Type} (d : List (String × β)) (k : String) (v : β) :
    dictSet (dictSet d k v) k v = dictSet d k v := by
  rw [dictSet, if_pos (by rw [keys_dictSet]; split <;> simp_all)]
  conv_rhs => rw [← List.map_id (dictSet d k v)]
  refine List.map_congr_left fun e he => ?_
  split
  · exact (eq_of_mem_dictSet he ‹_›).symm
  · rfl

theorem nodup_keys_dictSet {β : Type} {d : List (String × β)} (h : (d.map Prod.fst).Nodup)
    (k : String) (v : β) : ((dictSet d k v).map Prod.fst).Nodup := by
  rw [keys_dictSet]; split
  · exact h
  · exact h.append (List.nodup_singleton k) (List.disjoint_singleton.2 ‹_›)

/-- An item of a dict with distinct keys is what its key looks up. -/
theorem dictGet_of_mem {β : Type} {d : List (String × β)} (h : (d.map Prod.fst).Nodup)
    {k : String} {v : β} (hm : (k, v) ∈ d) : dictGet d k = some v := by
  induction d with
  | nil => cases hm
  | cons e d ih =>
    rw [List.map_cons, List.nodup_cons] at h
    rcases List.mem_cons.1 hm with rfl | hm
    · simp [dictGet]
    · have hk : e.1 ≠ k := fun he => h.1 (he ▸ List.mem_map_of_mem Prod.fst hm)
      simp [dictGet, hk, ih h.2 hm]

theorem mem_of_dictGet {β : Type} {d : List (String × β)} {k : String} {v : β}
    (h : dictGet d k = some v) : (k, v) ∈ d := by
  induction d with
  | nil => simp [dictGet] at h
  | cons e d ih =>
    obtain ⟨a, b⟩ := e
    simp only [dictGet] at h
    split at h
    · cases h; subst_vars; exact List.mem_cons_self _ _
    · exact List.mem_cons_of_mem _ (ih h)

/-- `d.update(d')`: each item of `d'` assigned to `d` in order. -/
def dictUpdate {β : Type} (d d' : List (String × β)) : List (String × β) :=
  d'.foldl (fun d e => dictSet d e.1 e.2) d

theorem dictGet_dictUpdate {β : Type} (k : String) : ∀ {d d' : List (String × β)},
    (d'.map Prod.fst).Nodup → dictGet (dictUpdate d d') k = (dictGet d' k).or (dictGet d k)
  | _, [], _ => by simp [dictUpdate, dictGet]
  | d, e :: d', h => by
    rw [List.map_cons, List.nodup_cons] at h
    show dictGet (dictUpdate (dictSet d e.1 e.2) d') k = _
    rw [dictGet_dictUpdate k h.2]
    by_cases hk : k = e.1
    · subst hk; simp [dictGet, dictGet_eq_none.2 h.1]
    · simp [dictGet, hk, Ne.symm hk]

theorem nodup_keys_dictUpdate {β : Type} : ∀ {d : List (String × β)} (d' : List (String × β)),
    (d.map Prod.fst).Nodup → ((dictUpdate d d').map Prod.fst).Nodup
  | _, [], h => h
  | _, e :: d', h => (nodup_keys_dictUpdate d' (nodup_keys_dictSet h e.1 e.2) :)

/-! ### Lists -/

/-- `lst[i] = v` with Python's index rules: a negative `i` counts from the end, and an index out
    of range raises `IndexError` (`none`). -/
def pySetItem {α : Type} (l : List α) (i : Int) (v : α) : Option (List α) :=
  let j := if i < 0 then i + l.length else i
  if 0 ≤ j ∧ j < l.length then some (l.set j.toNat v) else none

theorem mem_of_pySetItem {α : Type} {l l' : List α} {i : Int} {v x : α}
    (h : pySetItem l i v = some l') (hx : x ∈ l') : x ∈ l ∨ x = v := by
  unfold pySetItem at h
  dsimp only at h
  generalize (if i < 0 then i + (l.length : Int) else i) = j at h
  split at h
  · cases h; exact List.mem_or_eq_of_mem_set hx
  · cases h

theorem pySetItem_length {α : Type} {l l' : List α} {i : Int} {v : α}
    (h : pySetItem l i v = some l') : l'.length = l.length ∧ i < l.length := by
  unfold pySetItem at h
  dsimp only at h
  generalize hj' : (if i < 0 then i + (l.length : Int) else i) = j at h
  split at h
  · cases h
    exact ⟨List.length_set .., by split_ifs at hj' <;> omega⟩
  · cases h

/-- Repeating an assignment that succeeded assigns the same list. -/
theorem pySetItem_idem {α : Type} {l l' : List α} {i : Int} {v : α}
    (h : pySetItem l i v = some l') : pySetItem l' i v = some l' := by
  have hlen := (pySetItem_length h).1
  unfold pySetItem at h ⊢
  dsimp only at h ⊢
  rw [hlen]
  generalize (if i < 0 then i + (l.length : Int) else i) = j at h ⊢
  split at h
  · cases h; rw [if_pos ‹_›, List.set_set]
  · cases h

end HathorCore
