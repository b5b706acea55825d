import KuberCoin.Bytes
import Mathlib.Data.List.Forall2

/-!
Multisignature scripts (crate `tx`, `multisig.rs`): the configuration of a script, its
template, and the parser of templates. The keys are points of a curve with their compressed
encodings; the curve itself is not modelled.
-/
namespace KuberCoin.MultisigScripts

open Bytes

/-- `PublicKey::to_bytes` and `PublicKey::from_bytes`: a key is written in 33 bytes, and read
back from them. Other encodings may be read too. -/
structure KeyCodec (K : Type) where
  toBytes : K → List UInt8
  fromBytes : List UInt8 → Except String K
  toBytes_length : ∀ k, (toBytes k).length = 33
  fromBytes_toBytes : ∀ k, fromBytes (toBytes k) = .ok k
  compressed : ∀ {b k}, fromBytes b = .ok k → b.length = 33 → b = toBytes k

structure MultisigConfig (K : Type) where
  requiredSigs : ℕ
  totalKeys : ℕ
  publicKeys : List K
  deriving DecidableEq

variable {K : Type} (codec : KeyCodec K)

section Model

def MultisigConfig.new (requiredSigs : ℕ) (publicKeys : List K) : Except String (MultisigConfig K) :=
  let totalKeys := publicKeys.length
  if requiredSigs = 0 then .error "required signatures must be at least 1"
  else if totalKeys < requiredSigs then
    .error ("required signatures (" ++ toString requiredSigs ++ ") cannot exceed total keys (" ++
      toString totalKeys ++ ")")
  else if 15 < totalKeys then .error "maximum 15 public keys allowed"
  else if publicKeys = [] then .error "at least one public key required"
  else .ok ⟨requiredSigs, totalKeys, publicKeys⟩

/-- `OP_1` to `OP_16`. -/
def opNumber (n : ℕ) : UInt8 := UInt8.ofNat (0x50 + n)

/-- The pushes of the keys. -/
def pushKeys : List (List UInt8) → Except String (List UInt8)
  | [] => .ok []
  | key :: keys =>
      if 75 < key.length then .error "public key too large"
      else (pushKeys keys).map fun rest => UInt8.ofNat key.length :: key ++ rest

def createMultisigScript (config : MultisigConfig K) : Except String (List UInt8) :=
  if 16 < config.requiredSigs ∨ 16 < config.totalKeys then .error "limited to 16 keys"
  else if 1 ≤ config.requiredSigs ∧ config.requiredSigs ≤ 16 then
    match pushKeys (config.publicKeys.map codec.toBytes) with
    | .error e => .error e
    | .ok keys =>
        if 1 ≤ config.totalKeys ∧ config.totalKeys ≤ 16 then
          .ok (opNumber config.requiredSigs :: keys ++ [opNumber config.totalKeys, 0xae])
        else .error "total keys must be 1-16"
  else .error "required signatures must be 1-16"

/-- `OP_1` to `OP_16` as a number. -/
def smallNumber (opcode : UInt8) : Option ℕ :=
  if 0x51 ≤ opcode ∧ opcode ≤ 0x60 then some (opcode.toNat - 0x50) else none

/-- The loop over the keys, in the bytes between the two numbers. What it leaves of them is
not looked at. -/
def keyLoop : ℕ → List UInt8 → Except String (List K)
  | 0, _ => .ok []
  | _ + 1, [] => .error "unexpected end of script"
  | n + 1, len :: rest =>
      if rest.length < len.toNat then .error "invalid public key length"
      else
        match codec.fromBytes (rest.take len.toNat) with
        | .error e => .error e
        | .ok key => (keyLoop n (rest.drop len.toNat)).map fun keys => key :: keys

def parseMultisigScript (script : List UInt8) : Except String (MultisigConfig K) :=
  if script.length < 4 then .error "script too short"
  else if script.getD (script.length - 1) 0 ≠ 0xae then .error "script does not end with OP_CHECKMULTISIG"
  else
    match smallNumber (script.getD 0 0) with
    | none => .error "invalid OP_m"
    | some requiredSigs =>
        match smallNumber (script.getD (script.length - 2) 0) with
        | none => .error "invalid OP_n"
        | some totalKeys =>
            match keyLoop codec totalKeys ((script.drop 1).take (script.length - 3)) with
            | .error e => .error e
            | .ok keys =>
                if keys.length ≠ totalKeys then
                  .error ("expected " ++ toString totalKeys ++ " keys, found " ++ toString keys.length)
                else MultisigConfig.new requiredSigs keys

def isMultisigScript (script : List UInt8) : Bool :=
  if script.length < 40 then false
  else if script.getD (script.length - 1) 0 ≠ 0xae then false
  else if script.getD 0 0 < 0x51 ∨ 0x60 < script.getD 0 0 then false
  else true

end Model

section Templates

variable {keys : List K} {config : MultisigConfig K} {n : ℕ}

/-- A push of at most 255 bytes, as the loop reads it. -/
def lengthPrefixed (data : List UInt8) : List UInt8 := UInt8.ofNat data.length :: data

/-- A script with two numbers, encoded keys between them, and more bytes behind the keys. -/
def template (m n : ℕ) (keys : List (List UInt8)) (extra : List UInt8) : List UInt8 :=
  opNumber m :: (keys.flatMap lengthPrefixed ++ extra) ++ [opNumber n, 0xae]

/-- A configuration for which there is a script. -/
structure Valid (config : MultisigConfig K) : Prop where
  required_pos : 1 ≤ config.requiredSigs
  required_le : config.requiredSigs ≤ config.totalKeys
  total_le : config.totalKeys ≤ 16
  total_eq : config.publicKeys.length = config.totalKeys

variable {codec}

theorem pushKeys_eq {keys : List (List UInt8)} (h : ∀ key ∈ keys, key.length ≤ 75) :
    pushKeys keys = .ok (keys.flatMap lengthPrefixed) := by
  induction keys with
  | nil => rfl
  | cons key keys ih =>
    rw [pushKeys, if_neg (by have := h key List.mem_cons_self; omega),
      ih fun k hk => h k (List.mem_cons_of_mem key hk)]
    rfl

theorem createMultisigScript_eq (h : Valid config) : createMultisigScript codec config =
      .ok (template config.requiredSigs config.totalKeys (config.publicKeys.map codec.toBytes) []) := by
  have hpos := h.required_pos
  have hle := h.required_le
  have htotal := h.total_le
  have hkeys : ∀ key ∈ config.publicKeys.map codec.toBytes, key.length ≤ 75 := by
    intro key hkey
    obtain ⟨k, -, rfl⟩ := List.mem_map.mp hkey
    rw [codec.toBytes_length]
    decide
  rw [createMultisigScript, if_neg (by omega), if_pos (by omega), pushKeys_eq hkeys]
  show (if 1 ≤ config.totalKeys ∧ config.totalKeys ≤ 16 then _ else _) = _
  rw [if_pos (by omega), template, List.append_nil]

theorem smallNumber_opNumber (hpos : 1 ≤ n) (hle : n ≤ 16) : smallNumber (opNumber n) = some n := by
  have hvalue : (opNumber n).toNat = 0x50 + n := by
    rw [opNumber, UInt8.toNat_ofNat', Nat.mod_eq_of_lt (by omega)]
  have hlow : (0x51 : UInt8) ≤ opNumber n := by
    rw [UInt8.le_iff_toNat_le, hvalue]
    show 81 ≤ 80 + n
    omega
  have hhigh : opNumber n ≤ 0x60 := by
    rw [UInt8.le_iff_toNat_le, hvalue]
    show 80 + n ≤ 96
    omega
  rw [smallNumber, if_pos ⟨hlow, hhigh⟩, hvalue, Nat.add_sub_cancel_left]

theorem smallNumber_eq_some {opcode : UInt8} (h : smallNumber opcode = some n) :
    1 ≤ n ∧ n ≤ 16 ∧ opcode = opNumber n := by
  unfold smallNumber at h
  split at h
  next hrange =>
    obtain ⟨hlow, hhigh⟩ := hrange
    rw [UInt8.le_iff_toNat_le] at hlow hhigh
    have hlow : 81 ≤ opcode.toNat := hlow
    have hhigh : opcode.toNat ≤ 96 := hhigh
    cases h
    refine ⟨by omega, by omega, UInt8.toNat_inj.mp ?_⟩
    rw [opNumber, UInt8.toNat_ofNat', show 0x50 + (opcode.toNat - 0x50) = opcode.toNat by omega,
      Nat.mod_eq_of_lt (by omega)]
  next => cases h

theorem keyLoop_eq_ok {bytes : List UInt8} :
    keyLoop codec n bytes = .ok keys ↔ ∃ encs extra, bytes = encs.flatMap lengthPrefixed ++ extra ∧
      encs.length = n ∧ (∀ enc ∈ encs, enc.length < 256) ∧
        List.Forall₂ (fun enc key => codec.fromBytes enc = .ok key) encs keys := by
  induction n generalizing bytes keys with
  | zero =>
    constructor
    · intro h
      cases h
      exact ⟨[], bytes, rfl, rfl, by simp, .nil⟩
    · rintro ⟨encs, extra, -, hlen, -, hread⟩
      rw [List.length_eq_zero_iff.mp hlen] at hread
      cases hread
      rfl
  | succ n ih =>
    constructor
    · intro h
      cases bytes with
      | nil => cases h
      | cons len rest =>
        unfold keyLoop at h
        split at h
        next => cases h
        next hlen =>
          cases hkey : codec.fromBytes (rest.take len.toNat) with
          | error e =>
            rw [hkey] at h
            cases h
          | ok key =>
            rw [hkey] at h
            cases hlater : keyLoop codec n (rest.drop len.toNat) with
            | error e =>
              simp only [hlater] at h
              cases h
            | ok later =>
              simp only [hlater] at h
              cases h
              obtain ⟨encs, extra, hbytes, hcount, hshort, hread⟩ := ih.mp hlater
              have htake : (rest.take len.toNat).length = len.toNat := by
                rw [List.length_take]
                omega
              refine ⟨rest.take len.toNat :: encs, extra, ?_, by rw [List.length_cons, hcount], ?_, .cons hkey hread⟩
              · rw [List.flatMap_cons, lengthPrefixed, htake, UInt8.ofNat_toNat, List.append_assoc, ← hbytes]
                rw [List.cons_append, List.take_append_drop]
              · intro enc henc
                obtain rfl | henc := List.mem_cons.mp henc
                · rw [htake]
                  exact len.toNat_lt
                · exact hshort enc henc
    · rintro ⟨encs, extra, rfl, hcount, hshort, hread⟩
      cases hread with
      | nil => cases hcount
      | @cons enc key encs keys hkey hread =>
        have hlen : (UInt8.ofNat enc.length).toNat = enc.length := by
          rw [UInt8.toNat_ofNat', Nat.mod_eq_of_lt (hshort enc List.mem_cons_self)]
        have hlater := ih.mpr ⟨encs, extra, rfl, Nat.succ.inj hcount,
          fun e he => hshort e (List.mem_cons_of_mem enc he), hread⟩
        rw [List.flatMap_cons, lengthPrefixed, List.cons_append, List.cons_append, keyLoop, hlen]
        rw [if_neg (by rw [List.length_append, List.length_append]; omega), List.append_assoc, List.take_left,
          List.drop_left]
        simp only [hkey, hlater]
        rfl

theorem new_eq_ok {m : ℕ} : MultisigConfig.new m keys = .ok config ↔
      config = ⟨m, keys.length, keys⟩ ∧ 1 ≤ m ∧ m ≤ keys.length ∧ keys.length ≤ 15 := by
  show (if m = 0 then Except.error _ else if keys.length < m then Except.error _
    else if 15 < keys.length then Except.error _ else if keys = [] then Except.error _
    else Except.ok (⟨m, keys.length, keys⟩ : MultisigConfig K)) = _ ↔ _
  by_cases h0 : m = 0
  · simp [h0]
  · by_cases h1 : keys.length < m
    · simp [h0, h1]
    · by_cases h2 : 15 < keys.length
      · simp [h0, h1, h2]
      · have h3 : keys ≠ [] := by
          rintro rfl
          rw [List.length_nil] at h1
          omega
        simp only [h0, h1, h2, h3, if_false, Except.ok.injEq]
        constructor
        · rintro rfl
          exact ⟨rfl, by omega, by omega, by omega⟩
        · rintro ⟨rfl, -⟩
          rfl

/-- The places the parser looks at: the first byte, the last two, and those between them. -/
theorem ends_eq (first : UInt8) (mid : List UInt8) (y z : UInt8) :
    (first :: mid ++ [y, z]).length = mid.length + 3 ∧ (first :: mid ++ [y, z]).getD 0 0 = first ∧
      (first :: mid ++ [y, z]).getD (mid.length + 1) 0 = y ∧ (first :: mid ++ [y, z]).getD (mid.length + 2) 0 = z ∧
      ((first :: mid ++ [y, z]).drop 1).take mid.length = mid := by
  refine ⟨by simp, rfl, ?_, ?_, by simp⟩
  · simp [List.getD_eq_getElem?_getD]
  · simp [List.getD_eq_getElem?_getD]

theorem exists_ends {s : List UInt8} (h : 3 ≤ s.length) : ∃ first mid y z, s = first :: mid ++ [y, z] := by
  cases s with
  | nil => simp at h
  | cons first tail =>
    obtain rfl | ⟨init, z, rfl⟩ := List.eq_nil_or_concat tail
    · simp at h
    · obtain rfl | ⟨mid, y, rfl⟩ := List.eq_nil_or_concat init
      · simp at h
      · exact ⟨first, mid, y, z, by simp⟩

/-- What the parser accepts: a template with at most 15 keys, in whatever encodings, and any
bytes behind them. -/
structure Parsed (codec : KeyCodec K) (script : List UInt8) (config : MultisigConfig K)
    (encs : List (List UInt8)) (extra : List UInt8) : Prop where
  script_eq : script = template config.requiredSigs config.totalKeys encs extra
  count : encs.length = config.totalKeys
  short : ∀ enc ∈ encs, enc.length < 256
  read : List.Forall₂ (fun enc key => codec.fromBytes enc = .ok key) encs config.publicKeys
  required_pos : 1 ≤ config.requiredSigs
  required_le : config.requiredSigs ≤ config.totalKeys
  total_le : config.totalKeys ≤ 15

theorem parse_eq_ok {script : List UInt8} :
    parseMultisigScript codec script = .ok config ↔ ∃ encs extra, Parsed codec script config encs extra := by
  by_cases hshort : script.length < 4
  · rw [parseMultisigScript, if_pos hshort]
    refine iff_of_false (fun h => by cases h) ?_
    rintro ⟨encs, extra, hparsed⟩
    have hpos := hparsed.required_pos
    have hle := hparsed.required_le
    have hcount := hparsed.count
    rw [hparsed.script_eq, template, (ends_eq _ _ _ _).1, List.length_append] at hshort
    cases encs with
    | nil =>
      rw [List.length_nil] at hcount
      omega
    | cons enc encs =>
      rw [List.flatMap_cons, List.length_append, lengthPrefixed, List.length_cons] at hshort
      omega
  · obtain ⟨first, mid, y, z, rfl⟩ := exists_ends (show 3 ≤ script.length by omega)
    obtain ⟨hlen, hfirst, hy, hz, hmid⟩ := ends_eq first mid y z
    rw [parseMultisigScript, if_neg hshort, hlen, show mid.length + 3 - 1 = mid.length + 2 by omega,
      show mid.length + 3 - 2 = mid.length + 1 by omega, show mid.length + 3 - 3 = mid.length by omega,
      hfirst, hy, hz, hmid]
    constructor
    · intro h
      split at h
      next => cases h
      next hcheck =>
        split at h
        next => cases h
        next m hm =>
          split at h
          next => cases h
          next n hn =>
            split at h
            next => cases h
            next keys hkeys =>
              split at h
              next => cases h
              next hcount =>
                obtain ⟨encs, extra, hbytes, hencs, hsizes, hread⟩ := keyLoop_eq_ok.mp hkeys
                obtain ⟨hm1, hm2, rfl⟩ := smallNumber_eq_some hm
                obtain ⟨hn1, hn2, rfl⟩ := smallNumber_eq_some hn
                have hcount : keys.length = n := not_not.mp hcount
                have hz : z = 0xae := not_not.mp hcheck
                obtain ⟨rfl, hpos, hle, htotal⟩ := new_eq_ok.mp h
                refine ⟨encs, extra, ⟨?_, ?_, hsizes, hread, hpos, hle, htotal⟩⟩
                · rw [template, hbytes, hz, hcount]
                · rw [hencs, hcount]
    · rintro ⟨encs, extra, hscript, hcount, hsizes, hread, hpos, hle, htotal⟩
      have hends := congrArg (fun l => (l.getD 0 0, l.getD (l.length - 2) 0, l.getD (l.length - 1) 0,
        (l.drop 1).take (l.length - 3))) hscript
      obtain ⟨hlen', hfirst', hy', hz', hmid'⟩ :=
        ends_eq (opNumber config.requiredSigs) (encs.flatMap lengthPrefixed ++ extra) (opNumber config.totalKeys) 0xae
      simp only [template, hlen, hlen', show ∀ a : ℕ, a + 3 - 1 = a + 2 from fun a => by omega,
        show ∀ a : ℕ, a + 3 - 2 = a + 1 from fun a => by omega, show ∀ a : ℕ, a + 3 - 3 = a from fun a => by omega,
        hfirst, hy, hz, hmid, hfirst', hy', hz', hmid', Prod.mk.injEq] at hends
      obtain ⟨rfl, rfl, rfl, rfl⟩ := hends
      have hkeys := keyLoop_eq_ok.mpr ⟨encs, extra, rfl, hcount, hsizes, hread⟩
      have hlength : config.publicKeys.length = config.totalKeys := by rw [← hread.length_eq, hcount]
      rw [smallNumber_opNumber hpos (by omega), smallNumber_opNumber (by omega) (by omega), if_neg (not_not.mpr rfl)]
      simp only [hkeys, hlength, ne_eq, not_true_eq_false, if_false]
      exact new_eq_ok.mpr ⟨by rw [hlength], hpos, by omega, by omega⟩

end Templates

section Exactness

variable {keys : List K} {encs keys' : List (List UInt8)} {extra extra' : List UInt8}

/-- The parser is exact on a script: it finds the configurations whose script this is, and no others. -/
def Exact (codec : KeyCodec K) (script : List UInt8) : Prop :=
  ∀ config : MultisigConfig K, parseMultisigScript codec script = .ok config ↔
    Valid config ∧ createMultisigScript codec config = .ok script

/-- The script of a configuration with 16 keys. -/
def SixteenKeys (codec : KeyCodec K) (script : List UInt8) : Prop :=
  ∃ (m : ℕ) (keys : List K), 1 ≤ m ∧ m ≤ 16 ∧ keys.length = 16 ∧ script = template m 16 (keys.map codec.toBytes) []

/-- Two numbers with keys between them, of which one is not in its compressed encoding, or
behind which there are more bytes. -/
def Loose (codec : KeyCodec K) (script : List UInt8) : Prop :=
  ∃ (m n : ℕ) (encs : List (List UInt8)) (extra : List UInt8), 1 ≤ m ∧ m ≤ n ∧ n ≤ 15 ∧ encs.length = n ∧
    script = template m n encs extra ∧ (∀ enc ∈ encs, enc.length < 256 ∧ ∃ key, codec.fromBytes enc = .ok key) ∧
    (extra ≠ [] ∨ ∃ enc ∈ encs, enc.length ≠ 33)

variable {codec}

theorem prefixed_injective {keys : List (List UInt8)} (hcount : keys.length = keys'.length)
    (h : ∀ key ∈ keys, key.length < 256) (h' : ∀ key ∈ keys', key.length < 256)
    (heq : keys.flatMap lengthPrefixed ++ extra = keys'.flatMap lengthPrefixed ++ extra') :
    keys = keys' ∧ extra = extra' := by
  induction keys generalizing keys' with
  | nil =>
    rw [List.length_nil] at hcount
    rw [List.length_eq_zero_iff.mp hcount.symm] at heq ⊢
    exact ⟨rfl, heq⟩
  | cons key keys ih =>
    cases keys' with
    | nil => cases hcount
    | cons key' keys' =>
      rw [List.flatMap_cons, List.flatMap_cons, List.append_assoc, List.append_assoc] at heq
      obtain ⟨hlen, heq⟩ := List.cons.inj heq
      have hlen : key.length = key'.length := by
        have hvalue := congrArg UInt8.toNat hlen
        rwa [UInt8.toNat_ofNat', UInt8.toNat_ofNat', Nat.mod_eq_of_lt (h key List.mem_cons_self),
          Nat.mod_eq_of_lt (h' key' List.mem_cons_self)] at hvalue
      obtain ⟨rfl, hrest⟩ := List.append_inj heq hlen
      obtain ⟨rfl, rfl⟩ := ih (Nat.succ.inj hcount) (fun k hk => h k (List.mem_cons_of_mem key hk))
        (fun k hk => h' k (List.mem_cons_of_mem key hk)) hrest
      exact ⟨rfl, rfl⟩

theorem template_injective {m n : ℕ} {keys : List (List UInt8)} (hcount : keys.length = keys'.length)
    (h : ∀ key ∈ keys, key.length < 256) (h' : ∀ key ∈ keys', key.length < 256)
    (heq : template m n keys extra = template m n keys' extra') : keys = keys' ∧ extra = extra' := by
  have hmid := (List.cons.inj (List.append_inj_left' heq rfl)).2
  exact prefixed_injective hcount h h' hmid

theorem compressed_short : ∀ enc ∈ keys.map codec.toBytes, enc.length < 256 := by
  intro enc henc
  obtain ⟨key, -, rfl⟩ := List.mem_map.mp henc
  rw [codec.toBytes_length]
  decide

theorem read_compressed (keys : List K) :
    List.Forall₂ (fun enc key => codec.fromBytes enc = .ok key) (keys.map codec.toBytes) keys := by
  induction keys with
  | nil => exact .nil
  | cons key keys ih => exact .cons (codec.fromBytes_toBytes key) ih

theorem compressed_of_read (h : List.Forall₂ (fun enc key => codec.fromBytes enc = .ok key) encs keys)
    (hlen : ∀ enc ∈ encs, enc.length = 33) : encs = keys.map codec.toBytes := by
  induction h with
  | nil => rfl
  | @cons enc key encs keys hread _ ih =>
    rw [List.map_cons, ← codec.compressed hread (hlen enc List.mem_cons_self),
      ← ih fun e he => hlen e (List.mem_cons_of_mem enc he)]

theorem exists_read (h : ∀ enc ∈ encs, ∃ key, codec.fromBytes enc = .ok key) :
    ∃ keys, List.Forall₂ (fun enc key => codec.fromBytes enc = .ok key) encs keys := by
  induction encs with
  | nil => exact ⟨[], .nil⟩
  | cons enc encs ih =>
    obtain ⟨key, hkey⟩ := h enc List.mem_cons_self
    obtain ⟨keys, hkeys⟩ := ih fun e he => h e (List.mem_cons_of_mem enc he)
    exact ⟨key :: keys, .cons hkey hkeys⟩

theorem read_of_mem (h : List.Forall₂ (fun enc key => codec.fromBytes enc = .ok key) encs keys) :
    ∀ enc ∈ encs, ∃ key, codec.fromBytes enc = .ok key := by
  induction h with
  | nil => simp
  | @cons enc key encs keys hread _ ih => exact List.forall_mem_cons.mpr ⟨⟨key, hread⟩, ih⟩

theorem parse_exact_iff (script : List UInt8) :
    Exact codec script ↔ ¬ SixteenKeys codec script ∧ ¬ Loose codec script := by
  constructor
  · intro hexact
    constructor
    · rintro ⟨m, keys, hpos, hle, hkeys, hscript⟩
      have hvalid : Valid (⟨m, 16, keys⟩ : MultisigConfig K) := ⟨hpos, hle, le_rfl, hkeys⟩
      have hparse := (hexact ⟨m, 16, keys⟩).mpr ⟨hvalid, by rw [createMultisigScript_eq hvalid, hscript]⟩
      obtain ⟨encs, extra, hparsed⟩ := parse_eq_ok.mp hparse
      have htotal : 16 ≤ 15 := hparsed.total_le
      omega
    · rintro ⟨m, n, encs, extra, hpos, hle, htotal, hcount, hscript, hencs, hloose⟩
      obtain ⟨keys, hread⟩ := exists_read fun enc henc => (hencs enc henc).2
      have hkeys : keys.length = n := by rw [← hread.length_eq, hcount]
      have hparse := parse_eq_ok.mpr ⟨encs, extra, (⟨hscript, hcount, fun enc henc => (hencs enc henc).1, hread, hpos,
        hle, htotal⟩ : Parsed codec script ⟨m, n, keys⟩ encs extra)⟩
      obtain ⟨hvalid, hcreate⟩ := (hexact _).mp hparse
      rw [createMultisigScript_eq hvalid, hscript, Except.ok.injEq] at hcreate
      obtain ⟨hsame, hextra⟩ := template_injective (by rw [List.length_map, hkeys, hcount]) compressed_short
        (fun enc henc => (hencs enc henc).1) hcreate
      obtain hne | ⟨enc, henc, hlen⟩ := hloose
      · exact hne hextra.symm
      · rw [← hsame] at henc
        obtain ⟨key, -, rfl⟩ := List.mem_map.mp henc
        exact hlen (codec.toBytes_length key)
  · rintro ⟨hsixteen, hloose⟩ config
    rw [parse_eq_ok]
    constructor
    · rintro ⟨encs, extra, hparsed⟩
      have hcount : config.publicKeys.length = config.totalKeys := by
        rw [← hparsed.read.length_eq, hparsed.count]
      have hvalid : Valid config :=
        ⟨hparsed.required_pos, hparsed.required_le, hparsed.total_le.trans (by decide), hcount⟩
      have hstrict : extra = [] ∧ ∀ enc ∈ encs, enc.length = 33 := by
        by_contra hnot
        refine hloose ⟨config.requiredSigs, config.totalKeys, encs, extra, hparsed.required_pos, hparsed.required_le,
          hparsed.total_le, hparsed.count, hparsed.script_eq, ?_, ?_⟩
        · exact fun enc henc => ⟨hparsed.short enc henc, read_of_mem hparsed.read enc henc⟩
        · rw [not_and_or] at hnot
          push Not at hnot
          exact hnot
      obtain ⟨rfl, hlen⟩ := hstrict
      refine ⟨hvalid, ?_⟩
      rw [createMultisigScript_eq hvalid, hparsed.script_eq, compressed_of_read hparsed.read hlen]
    · rintro ⟨hvalid, hcreate⟩
      rw [createMultisigScript_eq hvalid, Except.ok.injEq] at hcreate
      have htotal : config.totalKeys ≤ 15 := by
        by_contra hlarge
        have htotal : config.totalKeys = 16 := by
          have := hvalid.total_le
          omega
        exact hsixteen ⟨config.requiredSigs, config.publicKeys, hvalid.required_pos,
          hvalid.required_le.trans hvalid.total_le, by rw [hvalid.total_eq, htotal], by rw [← hcreate, htotal]⟩
      exact ⟨config.publicKeys.map codec.toBytes, [], ⟨hcreate.symm, by rw [List.length_map, hvalid.total_eq],
        compressed_short, read_compressed _, hvalid.required_pos, hvalid.required_le, htotal⟩⟩

end Exactness

section Example

/-- Keys as their compressed encodings, of which only the shape is checked. -/
def shapeCodec : KeyCodec {b : List UInt8 // b.length = 33 ∧ (b.head? = some 2 ∨ b.head? = some 3)} where
  toBytes := Subtype.val
  fromBytes b := if h : b.length = 33 ∧ (b.head? = some 2 ∨ b.head? = some 3) then .ok ⟨b, h⟩ else .error "malformed public key"
  toBytes_length k := k.property.1
  fromBytes_toBytes k := dif_pos k.property
  compressed := by
    intro b k h _
    split at h
    next => cases h; rfl
    next => cases h

/-- The generator of the curve. -/
def generatorKey : List UInt8 :=
  [0x02, 0x79, 0xbe, 0x66, 0x7e, 0xf9, 0xdc, 0xbb, 0xac, 0x55, 0xa0, 0x62, 0x95, 0xce, 0x87, 0x0b, 0x07, 0x02, 0x9b,
    0xfc, 0xdb, 0x2d, 0xce, 0x28, 0xd9, 0x59, 0xf2, 0x81, 0x5b, 0x16, 0xf8, 0x17, 0x98]

/-- One byte more between the key and `OP_1`, and the script is read as if it were not there. -/
theorem extra_byte_parsed :
    parseMultisigScript shapeCodec (template 1 1 [generatorKey] [0]) = .ok ⟨1, 1, [⟨generatorKey, by decide⟩]⟩ ∧
      ¬ Exact shapeCodec (template 1 1 [generatorKey] [0]) := by
  have hparse : parseMultisigScript shapeCodec (template 1 1 [generatorKey] [0]) =
      .ok ⟨1, 1, [⟨generatorKey, by decide⟩]⟩ := rfl
  refine ⟨hparse, fun hexact => ?_⟩
  have hcreate := ((hexact _).mp hparse).2
  have hlength := congrArg (fun script => script.toOption.map List.length) hcreate
  revert hlength
  decide

end Example

end KuberCoin.MultisigScripts
