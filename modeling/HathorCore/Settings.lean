import Mathlib.Data.List.Nodup

/-! # Settings: the validators of the hex-coded fields

`hathor/conf/settings.py` loads the node's settings from YAML and runs pydantic validators over
the fields that hold bytes: `_parse_hex_str` over each hex value (the version bytes, the genesis
script and hashes, and every soft-voided id), `_parse_checkpoints` over the checkpoints and
`_parse_blueprints` over the map of enabled blueprints. All three decode with Python's
`bytes.fromhex`, modelled here as CPython implements it (`_PyBytes_FromHex`): the string must be
ASCII, whitespace is skipped before each byte, a byte is two hexadecimal digits of either case,
and the `ValueError` names the position of the first character that breaks the rule, or the end
of the string when the last byte lacks its second digit.

The results hold of every input: `bytes.hex` read back by the validators gives the bytes again;
an accepted string is the encoding of its bytes up to whitespace and case; every `ValueError`
points at a character that is not a digit; `_parse_hex_str` strips a leading `x` but rejects
every `0x`; and `_parse_blueprints` succeeds exactly when every id decodes and no two decode
alike, and otherwise names the later of the two ids. -/

namespace HathorCore.Settings

/-- The exceptions the validators raise, with their messages. -/
inductive SettingsError where
  | valueError (msg : String)
  | typeError (msg : String)
  deriving DecidableEq, Repr

/-! ### bytes.fromhex -/

/-- `Py_ISSPACE`: space, and the characters from tab to carriage return. -/
def isSpace (c : Char) : Bool := c.toNat = 32 || (9 ≤ c.toNat && c.toNat ≤ 13)

/-- `_PyLong_DigitValue[c]` where it is below 16: the value of `c` as a hexadecimal digit, for
    `0`–`9`, `a`–`f` and `A`–`F`. -/
def digitValue (c : Char) : Option Nat :=
  if 48 ≤ c.toNat ∧ c.toNat ≤ 57 then some (c.toNat - 48)
  else if 97 ≤ c.toNat ∧ c.toNat ≤ 102 then some (c.toNat - 87)
  else if 65 ≤ c.toNat ∧ c.toNat ≤ 70 then some (c.toNat - 55)
  else none

/-- The loop of `_PyBytes_FromHex` over the characters from position `pos`: whitespace is skipped
    before a byte, a byte is two digits, and the error is a position in the string. A missing
    second digit is read at the end of the string, where the terminating NUL is no digit. -/
def fromhexLoop : List Char → Nat → Except Nat (List UInt8)
  | [], _ => .ok []
  | c :: cs, pos =>
    if isSpace c then fromhexLoop cs (pos + 1)
    else match digitValue c, cs with
      | none, _ => .error pos
      | some _, [] => .error (pos + 1)
      | some top, d :: rest =>
        match digitValue d with
        | none => .error (pos + 1)
        | some bot => (fromhexLoop rest (pos + 2)).map fun bs => UInt8.ofNat (top * 16 + bot) :: bs

/-- The message of the `ValueError` of `bytes.fromhex` at position `pos`. -/
def nonHexMessage (pos : Nat) : String :=
  "non-hexadecimal number found in fromhex() arg at position " ++ toString pos

/-- `bytes.fromhex(s)`. A string with a character beyond ASCII fails at the first one, before the
    loop runs. -/
def fromhex (s : String) : Except SettingsError (List UInt8) :=
  match s.toList.findIdx? fun c => 128 ≤ c.toNat with
  | some i => .error (.valueError (nonHexMessage i))
  | none => (fromhexLoop s.toList 0).mapError fun pos => .valueError (nonHexMessage pos)

/-! ### bytes.hex -/

/-- The lower-case digit of a value below 16. -/
def hexDigit (d : Nat) : Char := if d < 10 then Char.ofNat (48 + d) else Char.ofNat (87 + d)

/-- The characters of `bytes.hex()`: two lower-case digits a byte. -/
def hexChars : List UInt8 → List Char
  | [] => []
  | b :: bs => hexDigit (b.toNat / 16) :: hexDigit (b.toNat % 16) :: hexChars bs

/-- `bs.hex()`, the encoding that `bytes.fromhex` reads back. -/
def hex (bs : List UInt8) : String := String.mk (hexChars bs)

/-- The normal form of a hex string: whitespace dropped, letters lower-cased. -/
def normalForm (s : String) : String :=
  String.mk ((s.toList.filter fun c => !isSpace c).map Char.toLower)

/-! ### Digits

The digit tables, checked over the sixteen values. -/

theorem digitValue_hexDigit : ∀ d < 16, digitValue (hexDigit d) = some d := by decide

theorem isSpace_hexDigit : ∀ d < 16, isSpace (hexDigit d) = false := by decide

theorem hexDigit_ascii : ∀ d < 16, (hexDigit d).toNat < 128 ∧ hexDigit d ≠ 'x' := by decide

theorem isSpace_of_ge {c : Char} (h : 48 ≤ c.toNat) : isSpace c = false := by
  simp [isSpace]; omega

/-- A digit is no whitespace, lies in ASCII, and its lower-case form is the digit `bytes.hex`
    writes for its value. -/
theorem digitValue_eq_some {c : Char} {d : Nat} (h : digitValue c = some d) :
    d < 16 ∧ hexDigit d = c.toLower ∧ isSpace c = false ∧ c.toNat < 128 := by
  unfold digitValue at h
  split_ifs at h with h1 h2 h3 <;> cases h
  · refine ⟨by omega, ?_, isSpace_of_ge h1.1, by omega⟩
    simp only [hexDigit, Char.toLower, if_pos (show c.toNat - 48 < 10 by omega),
      if_neg (show ¬(c.toNat ≥ 65 ∧ c.toNat ≤ 90) by omega), Nat.add_sub_cancel' h1.1,
      Char.ofNat_toNat]
  · refine ⟨by omega, ?_, isSpace_of_ge (by omega), by omega⟩
    simp only [hexDigit, Char.toLower, if_neg (show ¬c.toNat - 87 < 10 by omega),
      if_neg (show ¬(c.toNat ≥ 65 ∧ c.toNat ≤ 90) by omega),
      Nat.add_sub_cancel' (show 87 ≤ c.toNat by omega), Char.ofNat_toNat]
  · refine ⟨by omega, ?_, isSpace_of_ge (by omega), by omega⟩
    simp only [hexDigit, Char.toLower, if_neg (show ¬c.toNat - 55 < 10 by omega),
      if_pos (show c.toNat ≥ 65 ∧ c.toNat ≤ 90 by omega)]
    congr 1
    omega

theorem ofNat_toNat (b : UInt8) : UInt8.ofNat b.toNat = b :=
  UInt8.eq_of_val_eq (Fin.ext (by simp [UInt8.ofNat, UInt8.toNat]))

/-! ### The loop, one equation a case -/

section Loop

variable {c d : Char} {cs rest : List Char} {pos top bot : Nat}

theorem fromhexLoop_space (hc : isSpace c) : fromhexLoop (c :: cs) pos = fromhexLoop cs (pos + 1) := by
  cases hv : digitValue c with
  | none => simp [fromhexLoop, hc, hv]
  | some v => cases cs <;> simp [fromhexLoop, hc, hv]

theorem fromhexLoop_bad_top (hc : ¬isSpace c) (hv : digitValue c = none) :
    fromhexLoop (c :: cs) pos = .error pos := by
  simp [fromhexLoop, hc, hv]

theorem fromhexLoop_last (hc : ¬isSpace c) (hv : digitValue c = some top) :
    fromhexLoop [c] pos = .error (pos + 1) := by
  simp [fromhexLoop, hc, hv]

theorem fromhexLoop_bad_bot (hc : ¬isSpace c) (hv : digitValue c = some top)
    (hd : digitValue d = none) : fromhexLoop (c :: d :: rest) pos = .error (pos + 1) := by
  simp [fromhexLoop, hc, hv, hd]

theorem fromhexLoop_pair (hc : ¬isSpace c) (hv : digitValue c = some top)
    (hd : digitValue d = some bot) :
    fromhexLoop (c :: d :: rest) pos =
      (fromhexLoop rest (pos + 2)).map fun bs => UInt8.ofNat (top * 16 + bot) :: bs := by
  simp [fromhexLoop, hc, hv, hd]

end Loop

/-! ### Round trip and normal form -/

theorem fromhexLoop_hexChars (bs : List UInt8) (pos : Nat) :
    fromhexLoop (hexChars bs) pos = .ok bs := by
  induction bs generalizing pos with
  | nil => rfl
  | cons b bs ih =>
    have hb : b.toNat < 256 := b.toNat_lt_size
    have hhi := digitValue_hexDigit (b.toNat / 16) (by omega)
    rw [hexChars, fromhexLoop_pair (by simp [isSpace_hexDigit _ (show b.toNat / 16 < 16 by omega)])
      hhi (digitValue_hexDigit (b.toNat % 16) (by omega)), ih]
    show Except.ok (_ :: bs) = _
    rw [show b.toNat / 16 * 16 + b.toNat % 16 = b.toNat by omega, ofNat_toNat]

/-- What the loop accepts is the encoding of its bytes, up to whitespace and case. -/
theorem hexChars_of_fromhexLoop {cs : List Char} {pos : Nat} {bs : List UInt8}
    (h : fromhexLoop cs pos = .ok bs) :
    hexChars bs = (cs.filter fun c => !isSpace c).map Char.toLower := by
  induction cs, pos using fromhexLoop.induct generalizing bs with
  | case1 => cases h; rfl
  | case2 c cs pos hc ih => rw [fromhexLoop_space hc] at h; simp [List.filter_cons, hc, ih h]
  | case3 c cs pos hc hv => rw [fromhexLoop_bad_top hc hv] at h; cases h
  | case4 c pos hc v hv => rw [fromhexLoop_last hc hv] at h; cases h
  | case5 c pos hc top d rest hv hd => rw [fromhexLoop_bad_bot hc hv hd] at h; cases h
  | case6 c pos hc top d rest hv bot hd ih =>
    rw [fromhexLoop_pair hc hv hd] at h
    cases hr : fromhexLoop rest (pos + 2) with
    | error => rw [hr] at h; cases h
    | ok bs' =>
      rw [hr] at h
      cases h
      obtain ⟨htop, hct, hcs, -⟩ := digitValue_eq_some hv
      obtain ⟨hbot, hdt, hds, -⟩ := digitValue_eq_some hd
      have hn : (UInt8.ofNat (top * 16 + bot)).toNat = top * 16 + bot :=
        UInt8.toNat_ofNat_of_lt (by show _ < 256; omega)
      simp only [hexChars, hn, ih hr, List.filter_cons, hcs, hds, Bool.not_false, if_true,
        List.map_cons, show (top * 16 + bot) / 16 = top by omega,
        show (top * 16 + bot) % 16 = bot by omega, hct, hdt]

/-- The characters `bytes.hex` writes are ASCII, and none of them is an `x`. -/
theorem mem_hexChars {c : Char} {bs : List UInt8} (h : c ∈ hexChars bs) :
    c.toNat < 128 ∧ c ≠ 'x' := by
  induction bs with
  | nil => cases h
  | cons b bs ih =>
    have hb : b.toNat < 256 := b.toNat_lt_size
    simp only [hexChars, List.mem_cons] at h
    rcases h with rfl | rfl | h
    · exact hexDigit_ascii _ (by omega)
    · exact hexDigit_ascii _ (by omega)
    · exact ih h

theorem fromhex_hex (bs : List UInt8) : fromhex (hex bs) = .ok bs := by
  have hascii : (hexChars bs).findIdx? (fun c => 128 ≤ c.toNat) = none :=
    List.findIdx?_eq_none_iff.mpr fun c hc => by simpa using (mem_hexChars hc).1
  simp only [fromhex, hex, String.toList, hascii, fromhexLoop_hexChars]
  rfl

/-- `bytes.fromhex` accepts a string only through the loop. -/
theorem fromhexLoop_of_fromhex {s : String} {bs : List UInt8} (h : fromhex s = .ok bs) :
    fromhexLoop s.toList 0 = .ok bs := by
  unfold fromhex at h
  split at h
  · cases h
  · cases hl : fromhexLoop s.toList 0 with
    | error => rw [hl] at h; cases h
    | ok bs' => rw [hl] at h; cases h; rfl

/-- An error of the loop is at a character that is not a digit, or at the end of the string. -/
theorem fromhexLoop_error {cs : List Char} {pos p : Nat} (h : fromhexLoop cs pos = .error p) :
    pos ≤ p ∧ (p = pos + cs.length ∨ ∃ c, cs[p - pos]? = some c ∧ digitValue c = none) := by
  induction cs, pos using fromhexLoop.induct with
  | case1 => cases h
  | case2 c cs pos hc ih =>
    rw [fromhexLoop_space hc] at h
    obtain ⟨hle, hend | ⟨c', hc', hv⟩⟩ := ih h
    · exact ⟨by omega, .inl (by simp only [List.length_cons]; omega)⟩
    · refine ⟨by omega, .inr ⟨c', ?_, hv⟩⟩
      rwa [show p - pos = p - (pos + 1) + 1 by omega, List.getElem?_cons_succ]
  | case3 c cs pos hc hv =>
    rw [fromhexLoop_bad_top hc hv] at h; cases h
    exact ⟨le_rfl, .inr ⟨c, by simp, hv⟩⟩
  | case4 c pos hc v hv =>
    rw [fromhexLoop_last hc hv] at h; cases h
    exact ⟨by omega, .inl rfl⟩
  | case5 c pos hc top d rest hv hd =>
    rw [fromhexLoop_bad_bot hc hv hd] at h; cases h
    exact ⟨by omega, .inr ⟨d, by simp, hd⟩⟩
  | case6 c pos hc top d rest hv bot hd ih =>
    rw [fromhexLoop_pair hc hv hd] at h
    cases hr : fromhexLoop rest (pos + 2) with
    | ok => rw [hr] at h; cases h
    | error p' =>
      rw [hr] at h; cases h
      obtain ⟨hle, hend | ⟨c', hc', hv'⟩⟩ := ih hr
      · exact ⟨by omega, .inl (by simp only [List.length_cons]; omega)⟩
      · refine ⟨by omega, .inr ⟨c', ?_, hv'⟩⟩
        rwa [show p - pos = p - (pos + 2) + 1 + 1 by omega, List.getElem?_cons_succ,
          List.getElem?_cons_succ]

/-- An accepted string, with its whitespace dropped and its letters lower-cased, is the encoding
    of its bytes; with the round trip, two accepted strings give the same bytes exactly when their
    normal forms agree. -/
theorem fromhex_normal_form (s : String) (bs : List UInt8) (h : fromhex s = .ok bs) :
    hex bs = normalForm s := by
  rw [hex, normalForm, hexChars_of_fromhexLoop (fromhexLoop_of_fromhex h)]

theorem fromhex_normal_form_spaced :
    fromhex " 0A\tbc " = .ok [10, 188] ∧ hex [10, 188] = normalForm " 0A\tbc " :=
  have h : fromhex " 0A\tbc " = .ok [10, 188] := rfl
  ⟨h, fromhex_normal_form _ _ h⟩

/-- Every `ValueError` of `bytes.fromhex` names a position that holds a character which is not a
    hexadecimal digit (whitespace where a second digit is due, or a character beyond ASCII), or
    the end of the string when the last byte lacks its second digit. -/
theorem fromhex_error_position (s : String) (e : SettingsError) (h : fromhex s = .error e) :
    ∃ p, e = .valueError (nonHexMessage p) ∧
      (p = s.length ∨ ∃ c, s.toList[p]? = some c ∧ digitValue c = none) := by
  unfold fromhex at h
  split at h
  · rename_i i hi
    cases h
    obtain ⟨hlt, hge, -⟩ := List.findIdx?_eq_some_iff_getElem.mp hi
    refine ⟨i, rfl, .inr ⟨_, List.getElem?_eq_getElem hlt, ?_⟩⟩
    cases hv : digitValue s.toList[i] with
    | none => rfl
    | some d => have := (digitValue_eq_some hv).2.2.2; have := of_decide_eq_true hge; omega
  · cases hl : fromhexLoop s.toList 0 with
    | ok => rw [hl] at h; cases h
    | error p =>
      rw [hl] at h; cases h
      obtain ⟨-, hend | hbad⟩ := fromhexLoop_error hl
      · exact ⟨p, rfl, .inl (by rw [hend, Nat.zero_add]; rfl)⟩
      · exact ⟨p, rfl, .inr (by simpa using hbad)⟩

theorem fromhex_error_position_odd :
    fromhex "abc" = .error (.valueError (nonHexMessage 3)) ∧
      ∃ p, SettingsError.valueError (nonHexMessage 3) = .valueError (nonHexMessage p) ∧
        (p = "abc".length ∨ ∃ c, "abc".toList[p]? = some c ∧ digitValue c = none) :=
  have h : fromhex "abc" = .error (.valueError (nonHexMessage 3)) := rfl
  ⟨h, fromhex_error_position _ _ h⟩

/-! ### The validators -/

/-- A value the YAML loader hands to a validator: a string, bytes, or any other value, given by
    the text `str()` makes of it. -/
inductive RawValue where
  | str (s : String)
  | bytes (b : List UInt8)
  | other (text : String)
  deriving DecidableEq, Repr

/-- `s.lstrip(chars)`. -/
def lstrip (s : String) (chars : List Char) : String :=
  String.mk (s.toList.dropWhile fun c => c ∈ chars)

/-- `_parse_hex_str(hex_str)`: a string loses its leading `x` characters and is decoded, bytes
    pass through, and anything else is a `TypeError`. -/
def parseHexStr : RawValue → Except SettingsError (List UInt8)
  | .str s => fromhex (lstrip s ['x'])
  | .bytes b => .ok b
  | .other text => .error (.typeError ("expected 'str' or 'bytes', got " ++ text))

/-- `_parse_hex_str` strips any run of leading `x`, so the settings files' `x28` reads as `28`;
    but `lstrip` strips characters, not a prefix, so every string written with `0x` is rejected. -/
theorem parse_hex_str_leading_x (s : String) :
    parseHexStr (.str ("x" ++ s)) = parseHexStr (.str s) ∧
      ∃ msg, parseHexStr (.str ("0x" ++ s)) = .error (.valueError msg) := by
  refine ⟨rfl, ?_⟩
  rw [parseHexStr, fromhex,
    show (lstrip ("0x" ++ s) ['x']).toList = '0' :: 'x' :: s.toList from rfl]
  split <;> exact ⟨_, rfl⟩

/-- `Checkpoint(height, hash)` of `hathor.checkpoint`, which is not under src/; settings.py builds
    it from a height and the bytes of a hash. -/
structure Checkpoint where
  height : Int
  hash : List UInt8
  deriving DecidableEq, Repr

/-- The value of the `CHECKPOINTS` setting: a YAML map from heights to hashes, a list of
    checkpoints already built, or any other value. -/
inductive RawCheckpoints where
  | dict (items : List (Int × String))
  | list (checkpoints : List Checkpoint)
  | other (text : String)

/-- `_parse_checkpoints(checkpoints)`: the list comprehension over the map's items stops at the
    first hash that fails to decode. -/
def parseCheckpoints : RawCheckpoints → Except SettingsError (List Checkpoint)
  | .dict items => items.mapM fun item => (fromhex item.2).map (Checkpoint.mk item.1)
  | .list checkpoints => .ok checkpoints
  | .other text =>
    .error (.typeError ("expected 'dict[int, str]' or 'list[Checkpoint]', got " ++ text))

/-- The loop of `_parse_blueprints` over the raw items, with the dict built so far. An id is new
    to the dict when it is stored, so the assignment appends it. -/
def parseBlueprintsFrom (blueprints : List (List UInt8 × String)) :
    List (String × String) → Except SettingsError (List (List UInt8 × String))
  | [] => .ok blueprints
  | (idStr, name) :: rest =>
    match fromhex idStr with
    | .error e => .error e
    | .ok blueprintId =>
      if blueprintId ∈ blueprints.map Prod.fst then
        .error (.typeError ("Duplicate blueprint id: " ++ idStr))
      else parseBlueprintsFrom (blueprints ++ [(blueprintId, name)]) rest

/-- `_parse_blueprints(blueprints_raw)`, over the raw dict's items in order. -/
def parseBlueprints (blueprints_raw : List (String × String)) :
    Except SettingsError (List (List UInt8 × String)) :=
  parseBlueprintsFrom [] blueprints_raw

/-! ### Reading back what `bytes.hex` writes -/

theorem lstrip_hex (bs : List UInt8) : lstrip (hex bs) ['x'] = hex bs := by
  unfold lstrip hex
  congr 1
  cases h : hexChars bs with
  | nil => rfl
  | cons c cs =>
    simp [String.toList, List.dropWhile_cons, (mem_hexChars (h ▸ List.mem_cons_self c cs)).2]

theorem mapM_cons_ok {α β ε : Type} {f : α → Except ε β} {a : α} {l : List α} {r : List β} :
    (a :: l).mapM f = .ok r ↔ ∃ b bs, f a = .ok b ∧ l.mapM f = .ok bs ∧ r = b :: bs := by
  rw [List.mapM_cons]
  cases f a <;> cases l.mapM f <;> simp [bind, Except.bind, pure, Except.pure, eq_comm]

theorem parseCheckpoints_hex (cps : List Checkpoint) :
    parseCheckpoints (.dict (cps.map fun cp => (cp.height, hex cp.hash))) = .ok cps := by
  induction cps with
  | nil => rfl
  | cons cp cps ih =>
    rw [parseCheckpoints] at ih ⊢
    rw [List.map_cons, List.mapM_cons, ih, fromhex_hex]
    rfl

/-- Round trip: the validators read back what `bytes.hex` writes. A hex value passes
    `_parse_hex_str`, whose leading-`x` strip never bites into it, and a checkpoint map written
    from a list of checkpoints gives that list back, in its order. -/
theorem hex_round_trip (bs : List UInt8) (cps : List Checkpoint) :
    parseHexStr (.str (hex bs)) = .ok bs ∧
      parseCheckpoints (.dict (cps.map fun cp => (cp.height, hex cp.hash))) = .ok cps :=
  ⟨by rw [parseHexStr, lstrip_hex, fromhex_hex], parseCheckpoints_hex cps⟩

/-! ### Blueprints -/

/-- What the loop of `_parse_blueprints` returns: with a dict of distinct ids so far, it succeeds
    exactly when every raw id decodes and no decoded id repeats, and it then appends the decoded
    ids with their names in order. -/
theorem parseBlueprintsFrom_ok_iff (raw : List (String × String)) :
    ∀ (acc bp : List (List UInt8 × String)), (acc.map Prod.fst).Nodup →
      (parseBlueprintsFrom acc raw = .ok bp ↔
        ∃ ids, (raw.map Prod.fst).mapM fromhex = .ok ids ∧ (acc.map Prod.fst ++ ids).Nodup ∧
          bp = acc ++ ids.zip (raw.map Prod.snd)) := by
  induction raw with
  | nil =>
    intro acc bp hacc
    simp only [parseBlueprintsFrom, List.map_nil, List.mapM_nil]
    constructor
    · rintro ⟨⟩; exact ⟨[], rfl, by simpa using hacc, by simp⟩
    · rintro ⟨ids, hids, -, rfl⟩; cases hids; simp
  | cons kv raw ih =>
    obtain ⟨k, v⟩ := kv
    intro acc bp hacc
    simp only [List.map_cons, mapM_cons_ok, parseBlueprintsFrom]
    cases hk : fromhex k with
    | error e =>
      refine ⟨nofun, ?_⟩
      rintro ⟨_, ⟨b, ids, hb, -⟩, -⟩
      cases hb
    | ok bid =>
      by_cases hmem : bid ∈ acc.map Prod.fst
      · simp only [if_pos hmem]
        refine ⟨nofun, ?_⟩
        rintro ⟨_, ⟨b, ids, hb, -, rfl⟩, hnd, -⟩
        cases hb
        exact ((List.nodup_append.mp hnd).2.2 hmem (List.mem_cons_self _ _)).elim
      · have hacc' : ((acc ++ [(bid, v)]).map Prod.fst).Nodup := by
          rw [List.map_append, List.map_singleton]
          exact hacc.append (List.nodup_singleton _) (List.disjoint_singleton.mpr hmem)
        simp only [if_neg hmem, ih _ bp hacc']
        constructor
        · rintro ⟨ids, hids, hnd, rfl⟩
          exact ⟨bid :: ids, ⟨bid, ids, rfl, hids, rfl⟩, by simpa using hnd, by simp⟩
        · rintro ⟨_, ⟨b, ids, hb, hids, rfl⟩, hnd, rfl⟩
          cases hb
          exact ⟨ids, hids, by simpa using hnd, by simp⟩

/-- `_parse_blueprints` succeeds exactly when every raw id decodes and no two decode to the same
    bytes (so no two have the same normal form), and the dict it returns holds the decoded ids
    with their names, in the raw dict's order. -/
theorem parse_blueprints_ok_iff (blueprints_raw : List (String × String))
    (blueprints : List (List UInt8 × String)) :
    parseBlueprints blueprints_raw = .ok blueprints ↔
      ∃ ids, (blueprints_raw.map Prod.fst).mapM fromhex = .ok ids ∧ ids.Nodup ∧
        blueprints = ids.zip (blueprints_raw.map Prod.snd) := by
  simpa using parseBlueprintsFrom_ok_iff blueprints_raw [] blueprints List.nodup_nil

theorem parseBlueprintsFrom_append (pre rest : List (String × String)) :
    ∀ acc bp, parseBlueprintsFrom acc pre = .ok bp →
      parseBlueprintsFrom acc (pre ++ rest) = parseBlueprintsFrom bp rest := by
  induction pre with
  | nil => intro acc bp h; cases h; rfl
  | cons kv pre ih =>
    obtain ⟨k, v⟩ := kv
    intro acc bp h
    rw [List.cons_append, parseBlueprintsFrom]
    rw [parseBlueprintsFrom] at h
    cases hk : fromhex k with
    | error e => rw [hk] at h; cases h
    | ok bid =>
      simp only [hk] at h ⊢
      split at h
      · cases h
      · rw [if_neg ‹_›]; exact ih _ _ h

/-- The duplicate error names the later id: once the items before it parse, an id that decodes
    to bytes already in the dict raises `TypeError` with that id's raw text, whatever follows. -/
theorem blueprint_duplicate_named (pre post : List (String × String)) (idStr name : String)
    (blueprints : List (List UInt8 × String)) (blueprintId : List UInt8)
    (hpre : parseBlueprints pre = .ok blueprints) (hid : fromhex idStr = .ok blueprintId)
    (hdup : blueprintId ∈ blueprints.map Prod.fst) :
    parseBlueprints (pre ++ (idStr, name) :: post) =
      .error (.typeError ("Duplicate blueprint id: " ++ idStr)) := by
  rw [parseBlueprints, parseBlueprintsFrom_append _ _ _ _ hpre, parseBlueprintsFrom, hid]
  exact if_pos hdup

/-- `ab` then `AB`: both decode to `0xab`, and the error names `AB`. -/
example : parseBlueprints ([("ab", "Bet")] ++ [("AB", "Swap")]) =
    .error (.typeError ("Duplicate blueprint id: " ++ "AB")) :=
  blueprint_duplicate_named [("ab", "Bet")] [] "AB" "Swap" [([171], "Bet")] [171] rfl rfl
    (by decide)

end HathorCore.Settings
