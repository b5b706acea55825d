import KuberCoin.Miniscripts
import KuberCoin.MultisigScripts
import KuberCoin.Psbts

/-!
Input scripts of multisignature outputs (crate `tx`), as `create_multisig_input` writes them
and as a PSBT is finalized, and what the interpreter makes of them. Both writers put the length
of the redeem script in front of it as a bare byte. The finalizer takes the signatures in the
order of the keys as byte strings.
-/
namespace KuberCoin.MultisigInputs

open Maps Transactions FailingPrograms ScriptInterpreters ScriptRuns Miniscripts
open MultisigScripts (KeyCodec MultisigConfig createMultisigScript isMultisigScript lengthPrefixed template opNumber)
open Psbts (Psbt PsbtInput)

section Writing

/-- Data behind its length, item after item, with a check of each. -/
def pushChecked {ε : Type} (check : List UInt8 → Except ε Unit) : List (List UInt8) → Except ε (List UInt8)
  | [] => .ok []
  | data :: items => do
      check data
      let bytes ← pushChecked check items
      return lengthPrefixed data ++ bytes

def checkSignature (sig : List UInt8) : Except String Unit :=
  if sig = [] then .error "empty signature not allowed"
  else if 255 < sig.length then .error "signature too large"
  else .ok ()

def createMultisigInput (signatures : List (List UInt8)) (redeemScript : List UInt8) : Except String (List UInt8) := do
  let sigs ← pushChecked checkSignature signatures
  if 255 < redeemScript.length then throw "redeem script too large for single push"
  return 0x00 :: sigs ++ lengthPrefixed redeemScript

/-- The errors of `finalize`. -/
inductive FinalizeError
  | missingData (text : String)
  | finalize (text : String)
  | sizeExceeded (text : String)
  | panicked
  deriving DecidableEq

/-- `BTreeMap::iter`: the keys ascend, compared byte by byte. -/
def entries (m : Map (List UInt8) (List UInt8)) : List (List UInt8 × List UInt8) :=
  (m.keys.sort (· ≤ ·)).filterMap fun key => (m.lookup key).map fun value => (key, value)

/-- A push of `build_p2pkh_script_sig`. -/
def pushCapped (data : List UInt8) : List UInt8 :=
  (if 75 < data.length then [0x4c] else []) ++ UInt8.ofNat (min data.length 255) :: data

def buildP2pkhScriptSig (sig pubkey : List UInt8) : List UInt8 := pushCapped sig ++ pushCapped pubkey

def checkPartialSig (sig : List UInt8) : Except FinalizeError Unit :=
  if 255 < sig.length then .error (.sizeExceeded "Signature too large") else .ok ()

def buildP2shScriptSig (input : PsbtInput) (redeemScript : List UInt8) : Except FinalizeError (List UInt8) := do
  let sigs ← pushChecked checkPartialSig ((entries input.partialSigs).map Prod.snd)
  if 255 < redeemScript.length then throw (.sizeExceeded "Redeem script too large")
  return (if isMultisigScript redeemScript then [0x00] else []) ++ sigs ++ lengthPrefixed redeemScript

def inputComplete (input : PsbtInput) : Bool :=
  if input.finalScriptSig = none ∧ entries input.partialSigs = [] then false
  else if input.redeemScript ≠ none ∧ entries input.partialSigs = [] then false
  else true

def isComplete (p : Psbt) : Bool := p.inputs.all inputComplete

/-- One turn of the first loop of `finalize`. -/
def inputScriptSig (index : ℕ) (input : PsbtInput) : Except FinalizeError (List UInt8) :=
  match input.finalScriptSig with
  | some script => .ok script
  | none =>
      match entries input.partialSigs with
      | [] => .error (.finalize s!"Input {index} has no signatures")
      | (pubkey, sig) :: others =>
          match input.redeemScript with
          | some redeemScript => buildP2shScriptSig input redeemScript
          | none =>
              if others ≠ [] then
                .error (.finalize s!"Input {index} requires exactly one signature for P2PKH")
              else .ok (buildP2pkhScriptSig sig pubkey)

def inputScriptSigs : ℕ → List PsbtInput → Except FinalizeError (List (List UInt8))
  | _, [] => .ok []
  | index, input :: inputs => do
      let script ← inputScriptSig index input
      let scripts ← inputScriptSigs (index + 1) inputs
      return script :: scripts

/-- The second loop: the scripts are entered into the inputs of the transaction. -/
def enterScripts : List TxInput → List (List UInt8) → List TxInput
  | input :: inputs, script :: scripts => { input with scriptSig := script } :: enterScripts inputs scripts
  | inputs, _ => inputs

def finalize (p : Psbt) : Except FinalizeError (Transaction × Psbt) :=
  if !isComplete p then .error (.missingData "PSBT is not complete - missing signatures")
  else
    match inputScriptSigs 0 p.inputs with
    | .error e => .error e
    | .ok scripts =>
        if p.unsignedTx.inputs.length < scripts.length then .error .panicked
        else .ok ({ p.unsignedTx with inputs := enterScripts p.unsignedTx.inputs scripts },
          { p with inputs := List.zipWith (fun input script => { input with finalScriptSig := some script }) p.inputs scripts })

end Writing

section Pushing

variable {items : List (List UInt8)} {data : List UInt8} {s : ScriptInterpreter}

theorem pushChecked_eq {ε : Type} {check : List UInt8 → Except ε Unit} (h : ∀ item ∈ items, check item = .ok ()) :
    pushChecked check items = .ok (items.flatMap lengthPrefixed) := by
  induction items with
  | nil => rfl
  | cons item items ih =>
    rw [List.forall_mem_cons] at h
    rw [pushChecked, h.1, ih h.2]
    rfl

/-- Data that is pushed by its length, and not by an opcode of its own. -/
def Direct (data : List UInt8) : Prop := 2 ≤ data.length ∧ data.length ≤ 75

theorem lengthPrefixed_eq (h : Direct data) : lengthPrefixed data = pushData data := by
  obtain ⟨hpos, hshort⟩ := h
  rw [pushData, if_neg (by omega), if_pos hshort, lengthPrefixed]

theorem flatMap_lengthPrefixed (h : ∀ item ∈ items, Direct item) :
    items.flatMap lengthPrefixed = items.flatMap pushData :=
  List.flatMap_congr fun item hitem => lengthPrefixed_eq (h item hitem)

theorem pushElement_direct (h : Direct data) (hroom : s.stack.length < maxStackSize) :
    pushElement data s = .ok ((), s.pushData data) := by
  obtain ⟨hpos, hshort⟩ := h
  rw [pushElement, if_neg (by omega), ScriptHashSpends.push_eq (by unfold maxElementSize; omega), if_pos hroom]

theorem pushKeys_direct (h : ∀ item ∈ items, Direct item) (hroom : s.stack.length + items.length ≤ maxStackSize) :
    pushKeys items s = .ok ((), { s with stack := items.reverse ++ s.stack }) := by
  induction items generalizing s with
  | nil => rfl
  | cons item items ih =>
    rw [List.forall_mem_cons] at h
    rw [List.length_cons] at hroom
    rw [pushKeys, bind_of_ok (pushElement_direct h.1 (by omega)), ih h.2 (by
      rw [ScriptInterpreter.pushData, List.length_cons]
      omega)]
    simp [ScriptInterpreter.pushData]

variable {prims : Primitives} {tx : Transaction} {index : ℕ}

/-- The script runs to its end and leaves these elements, the last of them on top. -/
def Leaves (prims : Primitives) (tx : Transaction) (index : ℕ) (script : List UInt8) (items : List (List UInt8)) : Prop :=
  ∃ final, execute prims tx index script .new = .ok ((), final) ∧ final.stack = items.reverse

theorem leaves_unique {script : List UInt8} {items' : List (List UInt8)} (h : Leaves prims tx index script items)
    (h' : Leaves prims tx index script items') : items = items' := by
  obtain ⟨final, hrun, hstack⟩ := h
  obtain ⟨final', hrun', hstack'⟩ := h'
  rw [hrun] at hrun'
  cases hrun'
  rw [hstack, List.reverse_inj] at hstack'
  exact hstack'

theorem leaves_direct {items : List (List UInt8)} (h : ∀ item ∈ items, Direct item) (hfew : items.length ≤ 100) :
    Leaves prims tx index (items.flatMap lengthPrefixed) items ∧
      Leaves prims tx index (0x00 :: items.flatMap lengthPrefixed) ([] :: items) := by
  have hsize : (items.flatMap lengthPrefixed).length ≤ 76 * items.length := by
    clear hfew
    induction items with
    | nil => simp
    | cons item items ih =>
      rw [List.forall_mem_cons] at h
      have hrest := ih h.2
      have hitem := h.1.2
      rw [List.flatMap_cons, List.length_append, lengthPrefixed, List.length_cons, List.length_cons]
      omega
  have hblock : Block prims tx index (items.flatMap lengthPrefixed) (pushKeys items) := by
    rw [flatMap_lengthPrefixed h]
    exact block_pushElements fun item hitem => (h item hitem).2
  constructor
  · have hroom : ScriptInterpreter.new.stack.length + items.length ≤ maxStackSize := by
      rw [ScriptInterpreter.new, maxStackSize, List.length_nil]
      omega
    refine ⟨_, (execute_block hblock (keeps_pushKeys items) rfl).mpr ⟨?_, pushKeys_direct h hroom⟩, ?_⟩
    · unfold maxScriptSize
      omega
    · simp [ScriptInterpreter.new]
  · have hwhole := block_zero.append (keeps_push []) hblock
    have hroom : (ScriptInterpreter.new.pushData []).stack.length + items.length ≤ maxStackSize := by
      rw [ScriptInterpreter.new, ScriptInterpreter.pushData, maxStackSize, List.length_singleton]
      omega
    have hrun : (push [] >>= fun _ => pushKeys items) .new = _ := pushKeys_direct h hroom
    refine ⟨_, (execute_block hwhole ((keeps_push []).bind (keeps_pushKeys items)) rfl).mpr ⟨?_, hrun⟩, ?_⟩
    · rw [List.length_append, List.length_singleton]
      unfold maxScriptSize
      omega
    · simp [ScriptInterpreter.new]

end Pushing

section Inlined

variable {prims : Primitives} {tx : Transaction} {index : ℕ}

theorem block_undefined {opcode : UInt8} {e : ScriptInterpreterError}
    (h : ∀ bytes pc, executeOpcode prims tx index opcode bytes pc = throw e) :
    Block prims tx index [opcode] (perform opcode (throw e)) := by
  intro before after s executing
  rw [resume_turn (read_append before after opcode)]
  show (step _ _ _ _ _ _ s >>= fun p => resume _ _ _ _ p.1 p.2) = _
  rw [step_executing executing, h]
  show ((countOp opcode >>= fun _ => throw e) >>= resume _ _ _ _) s = _
  simp only [perform, bind_assoc]
  rfl

theorem keeps_throw (e : ScriptInterpreterError) : Keeps (throw e) := by
  intro s
  simp

theorem keeps_op1add : Keeps op1add := by
  intro s
  simp [op1add, unary]

theorem block_length {length : ℕ} (h : length ∈ [105, 139, 173, 207, 241]) :
    ∃ op, Keeps op ∧ Block prims tx index [UInt8.ofNat length] op := by
  simp only [List.mem_cons, List.not_mem_nil, or_false] at h
  obtain rfl | rfl | rfl | rfl | rfl := h
  · exact ⟨_, keeps_opVerify.perform 0x69, block_opcode (by decide) (by decide) rfl⟩
  · exact ⟨_, keeps_op1add.perform 0x8b, block_opcode (by decide) (by decide) rfl⟩
  · exact ⟨_, (keeps_opChecksig.bind keeps_opVerify).perform 0xad, block_opcode (by decide) (by decide) rfl⟩
  · exact ⟨_, (keeps_throw _).perform 0xcf, block_undefined fun _ _ => rfl⟩
  · exact ⟨_, (keeps_throw _).perform 0xf1, block_undefined fun _ _ => rfl⟩

theorem ensures_opCheckmultisig (s : ScriptInterpreter) :
    Ensures (opCheckmultisig prims tx index) s fun _ s' => ∃ top rest, s'.stack = top :: rest ∧ top.length ≤ 1 := by
  have hanswer (p : Prop) [Decidable p] : (if p then [1] else [] : List UInt8).length ≤ 1 := by
    split
    · exact le_rfl
    · exact Nat.zero_le 1
  unfold opCheckmultisig
  simp [hanswer]

variable {m n : ℕ} {keys : List (List UInt8)}

theorem opNumber_range (h : 1 ≤ n ∧ n ≤ 16) : 0x51 ≤ opNumber n ∧ opNumber n ≤ 0x60 := by
  have hvalue : (opNumber n).toNat = 0x50 + n := by
    rw [opNumber, UInt8.toNat_ofNat', Nat.mod_eq_of_lt (by omega)]
  rw [UInt8.le_iff_toNat_le, UInt8.le_iff_toNat_le, hvalue]
  show 81 ≤ 80 + n ∧ 80 + n ≤ 96
  omega

/-- A redeem script ends in `OP_CHECKMULTISIG`, also where it is not pushed but run. -/
theorem block_template (hm : 1 ≤ m ∧ m ≤ 16) (hn : 1 ≤ n ∧ n ≤ 16) (hkeys : ∀ key ∈ keys, Direct key) :
    ∃ op, Keeps op ∧ Block prims tx index (template m n keys []) (op >>= fun _ => opCheckmultisig prims tx index) := by
  have hcheck : Block prims tx index [0xae] (perform 0xae (opCheckmultisig prims tx index)) :=
    block_opcode (by decide) (by decide) rfl
  have hpush : Block prims tx index (keys.flatMap lengthPrefixed) (pushKeys keys) := by
    rw [flatMap_lengthPrefixed hkeys]
    exact block_pushElements fun key hkey => (hkeys key hkey).2
  have hblock := (@block_small prims tx index _ (opNumber_range hm)).append (keeps_push _)
    (hpush.append (keeps_pushKeys keys) ((block_small (opNumber_range hn)).append (keeps_push _) hcheck))
  refine ⟨push [opNumber m - 0x50] >>= fun _ => pushKeys keys >>= fun _ => push [opNumber n - 0x50] >>= fun _ =>
    countOp 0xae, ?_, ?_⟩
  · exact (keeps_push _).bind ((keeps_pushKeys keys).bind ((keeps_push _).bind (keeps_countOp _)))
  · have hshape : template m n keys [] = [opNumber m] ++ (keys.flatMap lengthPrefixed ++ ([opNumber n] ++ [0xae])) := by
      simp [template]
    rw [hshape]
    simpa only [perform, bind_assoc] using hblock

theorem not_leaves_inlined {sigs items : List (List UInt8)} (hm : 1 ≤ m ∧ m ≤ 16) (hn : 1 ≤ n ∧ n ≤ 16)
    (hkeys : ∀ key ∈ keys, Direct key) (hsigs : ∀ sig ∈ sigs, Direct sig)
    (hlength : (template m n keys []).length ∈ [105, 139, 173, 207, 241]) :
    ¬ Leaves prims tx index (0x00 :: sigs.flatMap lengthPrefixed ++ lengthPrefixed (template m n keys []))
      (items ++ [template m n keys []]) := by
  rintro ⟨final, hrun, hstack⟩
  obtain ⟨op, hop, hopcode⟩ := @block_length prims tx index _ hlength
  obtain ⟨before, hbefore, hredeem⟩ := @block_template prims tx index _ _ _ hm hn hkeys
  have hpush : Block prims tx index (sigs.flatMap lengthPrefixed) (pushKeys sigs) := by
    rw [flatMap_lengthPrefixed hsigs]
    exact block_pushElements fun sig hsig => (hsigs sig hsig).2
  have hblock := block_zero.append (keeps_push []) (hpush.append (keeps_pushKeys sigs) (hopcode.append hop hredeem))
  have hkeeps := (keeps_push []).bind ((keeps_pushKeys sigs).bind (hop.bind
    (hbefore.bind (@keeps_opCheckmultisig prims tx index))))
  have hshape : 0x00 :: sigs.flatMap lengthPrefixed ++ lengthPrefixed (template m n keys []) =
      [0x00] ++ (sigs.flatMap lengthPrefixed ++ ([UInt8.ofNat (template m n keys []).length] ++ template m n keys [])) := by
    simp [lengthPrefixed]
  rw [hshape, execute_block hblock hkeeps rfl] at hrun
  obtain ⟨-, hrun⟩ := hrun
  obtain ⟨_, _, -, hrun⟩ := bind_eq_ok.mp hrun
  obtain ⟨_, _, -, hrun⟩ := bind_eq_ok.mp hrun
  obtain ⟨_, _, -, hrun⟩ := bind_eq_ok.mp hrun
  obtain ⟨_, mid, -, hrun⟩ := bind_eq_ok.mp hrun
  obtain ⟨top, rest, htop, hshort⟩ := (ensures_opCheckmultisig mid).apply hrun
  rw [htop, List.reverse_append, List.reverse_singleton] at hstack
  obtain ⟨rfl, -⟩ := List.cons.inj hstack
  simp only [List.mem_cons, List.not_mem_nil, or_false] at hlength
  omega

end Inlined

section Finalizing

variable {added : List (List UInt8 × List UInt8)} {inputs : List PsbtInput} {k : ℕ} {scripts : List (List UInt8)}

theorem mem_entries {m : Map (List UInt8) (List UInt8)} {key value : List UInt8} :
    (key, value) ∈ entries m ↔ m.lookup key = some value := by
  rw [entries, List.mem_filterMap]
  constructor
  · rintro ⟨other, -, h⟩
    obtain ⟨found, hfound, heq⟩ := Option.map_eq_some_iff.mp h
    cases heq
    exact hfound
  · intro h
    have hkey : key ∈ m.keys := Finmap.mem_keys.mpr ((mem_iff_lookup m key).mpr ⟨value, h⟩)
    exact ⟨key, (Finset.mem_sort _).mpr hkey, by rw [h]; rfl⟩

theorem entries_nodup (m : Map (List UInt8) (List UInt8)) : (entries m).Nodup := by
  refine (Finset.sort_nodup m.keys _).filterMap fun key key' entry h h' => ?_
  obtain ⟨value, -, rfl⟩ := Option.map_eq_some_iff.mp h
  obtain ⟨value', -, heq⟩ := Option.map_eq_some_iff.mp h'
  exact (Prod.mk.inj heq).1.symm

theorem entries_perm (hnodup : (added.map Prod.fst).Nodup) : (entries (insertAll ∅ added)).Perm added := by
  refine (List.perm_ext_iff_of_nodup (entries_nodup _) hnodup.of_map).mpr fun entry => ?_
  rw [mem_entries, (lists_insertAll hnodup).mem]

theorem entries_insertAll {sorted : List (List UInt8 × List UInt8)} (hperm : added.Perm sorted)
    (hnodup : (sorted.map Prod.fst).Nodup) (hsorted : (sorted.map Prod.fst).Pairwise (· ≤ ·)) :
    entries (insertAll ∅ added) = sorted := by
  have hlists := lists_insertAll ((hperm.map Prod.fst).nodup_iff.mpr hnodup)
  have hlookup (entry : List UInt8 × List UInt8) (h : entry ∈ sorted) :
      (insertAll ∅ added).lookup entry.1 = some entry.2 := (hlists.mem _ _).mp (hperm.mem_iff.mpr h)
  have hkeys : (insertAll ∅ added).keys = (sorted.map Prod.fst).toFinset := by
    ext key
    rw [Finmap.mem_keys, mem_iff_lookup, List.mem_toFinset, List.mem_map]
    constructor
    · rintro ⟨value, h⟩
      exact ⟨(key, value), hperm.mem_iff.mp ((hlists.mem _ _).mpr h), rfl⟩
    · rintro ⟨entry, hentry, rfl⟩
      exact ⟨entry.2, hlookup entry hentry⟩
  rw [entries, hkeys, (List.toFinset_sort _ hnodup).mpr hsorted, List.filterMap_map]
  calc sorted.filterMap _ = sorted.filterMap some := by
        refine List.filterMap_congr fun entry hentry => ?_
        simp [hlookup entry hentry]
    _ = sorted := List.filterMap_some

theorem inputScriptSigs_eq_ok (h : inputScriptSigs k inputs = .ok scripts) : scripts.length = inputs.length ∧
      ∀ (j : ℕ) (input : PsbtInput), inputs[j]? = some input → ∃ script, inputScriptSig (k + j) input = .ok script ∧
        scripts[j]? = some script := by
  induction inputs generalizing k scripts with
  | nil =>
    cases h
    simp
  | cons input inputs ih =>
    rw [inputScriptSigs] at h
    obtain ⟨script, hscript, h⟩ := except_bind_eq_ok.mp h
    obtain ⟨later, hlater, h⟩ := except_bind_eq_ok.mp h
    cases h
    obtain ⟨hlength, hlater⟩ := ih hlater
    refine ⟨by rw [List.length_cons, List.length_cons, hlength], fun j other hother => ?_⟩
    cases j with
    | zero =>
      cases hother
      exact ⟨script, hscript, rfl⟩
    | succ j =>
      obtain ⟨found, hfound, hat⟩ := hlater j other hother
      exact ⟨found, by rwa [show k + (j + 1) = k + 1 + j by omega], hat⟩

theorem exists_inputScriptSigs
    (h : ∀ (j : ℕ) (input : PsbtInput), inputs[j]? = some input → ∃ script, inputScriptSig (k + j) input = .ok script) :
    ∃ scripts, inputScriptSigs k inputs = .ok scripts := by
  induction inputs generalizing k with
  | nil => exact ⟨[], rfl⟩
  | cons input inputs ih =>
    obtain ⟨script, hscript⟩ := h 0 input rfl
    obtain ⟨scripts, hscripts⟩ := ih (k := k + 1) fun j other hother => by
      obtain ⟨found, hfound⟩ := h (j + 1) other hother
      exact ⟨found, by rwa [show k + 1 + j = k + (j + 1) by omega]⟩
    rw [Nat.add_zero] at hscript
    exact ⟨script :: scripts, by rw [inputScriptSigs, hscript, hscripts]; rfl⟩

theorem enterScripts_getElem {inputs : List TxInput} {j : ℕ} {script : List UInt8}
    (hshort : scripts.length ≤ inputs.length) (h : scripts[j]? = some script) :
    ∃ input, (enterScripts inputs scripts)[j]? = some input ∧ input.scriptSig = script := by
  induction inputs generalizing scripts j with
  | nil =>
    rw [List.length_nil, Nat.le_zero, List.length_eq_zero_iff] at hshort
    rw [hshort] at h
    cases h
  | cons input inputs ih =>
    cases scripts with
    | nil => cases h
    | cons first scripts =>
      cases j with
      | zero =>
        cases h
        exact ⟨_, rfl, rfl⟩
      | succ j => exact ih (Nat.le_of_succ_le_succ hshort) h

end Finalizing

section Exactness

variable {K : Type} {codec : KeyCodec K} {config : MultisigConfig K} {prims : Primitives} {tx : Transaction} {index : ℕ}
  {signed added : List (K × List UInt8)} {p : Psbt} {i : ℕ} {redeem : List UInt8} {signatures : List (List UInt8)}

/-- As many of the keys of a configuration as it asks for, in the order of the redeem script, each
with a valid signature. -/
structure SignedBy (prims : Primitives) (codec : KeyCodec K) (config : MultisigConfig K)
    (signed : List (K × List UInt8)) : Prop where
  count : signed.length = config.requiredSigs
  order : (signed.map Prod.fst).Sublist config.publicKeys
  nodup : (signed.map Prod.fst).Nodup
  valid : ∀ e ∈ signed, ∃ digest, signs prims digest (codec.toBytes e.1) e.2 = true

/-- A PSBT whose input spends the redeem script, with the signatures entered one after another;
its other inputs can be finalized. -/
structure Pending (codec : KeyCodec K) (p : Psbt) (i : ℕ) (redeem : List UInt8) (added : List (K × List UInt8)) : Prop where
  here : ∃ input, p.inputs[i]? = some input ∧ input.finalScriptSig = none ∧ input.redeemScript = some redeem ∧
    input.partialSigs = insertAll ∅ (added.map fun e => (codec.toBytes e.1, e.2))
  others : ∀ (j : ℕ) (other : PsbtInput), j ≠ i → p.inputs[j]? = some other →
    inputComplete other = true ∧ ∃ script, inputScriptSig j other = .ok script
  counted : p.inputs.length ≤ p.unsignedTx.inputs.length

/-- The script that `finalize` enters runs, and leaves these elements. -/
def FinalizeLeaves (prims : Primitives) (tx : Transaction) (index : ℕ) (p : Psbt) (i : ℕ) (items : List (List UInt8)) : Prop :=
  ∃ finalTx p' input, finalize p = .ok (finalTx, p') ∧ finalTx.inputs[i]? = some input ∧
    Leaves prims tx index input.scriptSig items

/-- The script of `create_multisig_input` runs, and leaves these elements. -/
def CreateLeaves (prims : Primitives) (tx : Transaction) (index : ℕ) (signatures : List (List UInt8)) (redeem : List UInt8)
    (items : List (List UInt8)) : Prop :=
  ∃ script, createMultisigInput signatures redeem = .ok script ∧ Leaves prims tx index script items

theorem toBytes_injective : Function.Injective codec.toBytes := by
  intro key key' h
  have hread := codec.fromBytes_toBytes key
  rw [h, codec.fromBytes_toBytes] at hread
  cases hread
  rfl

theorem entries_eq_iff (hperm : added.Perm signed) (hnodup : (signed.map Prod.fst).Nodup) (hfew : signed.length ≤ 2) :
    (entries (insertAll ∅ (added.map fun e => (codec.toBytes e.1, e.2)))).map Prod.snd = signed.map Prod.snd ↔
      signed.Pairwise fun a b => codec.toBytes a.1 < codec.toBytes b.1 ∨ a.2 = b.2 := by
  have hperm := hperm.map fun e => (codec.toBytes e.1, e.2)
  match signed, hperm, hnodup, hfew with
  | [], hperm, _, _ =>
    rw [entries_insertAll hperm .nil .nil]
    simp
  | [a], hperm, _, _ =>
    rw [entries_insertAll hperm (by simp) (by simp)]
    simp
  | [a, b], hperm, hnodup, _ =>
    have hne : codec.toBytes a.1 ≠ codec.toBytes b.1 := by
      intro h
      have hkeys := toBytes_injective h
      simp [hkeys] at hnodup
    by_cases hle : codec.toBytes a.1 ≤ codec.toBytes b.1
    · have hlt : codec.toBytes a.1 < codec.toBytes b.1 := by
        rw [← List.not_le]
        exact fun hge => hne (List.le_antisymm hle hge)
      rw [entries_insertAll hperm (by simpa using hne) (by simpa using hle)]
      simp [hlt]
    · have hge := (List.le_total (codec.toBytes a.1) (codec.toBytes b.1)).resolve_left hle
      have hlt : ¬ codec.toBytes a.1 < codec.toBytes b.1 := List.not_lt.mpr hge
      rw [entries_insertAll (hperm.trans (.swap _ _ _)) (by simpa using hne.symm) (by simpa using hge)]
      simp only [List.map_cons, List.map_nil, List.cons.injEq, and_true, List.pairwise_cons, List.mem_singleton,
        forall_eq, hlt, false_or, List.not_mem_nil, false_imp_iff, implies_true, List.Pairwise.nil]
      exact ⟨fun h => h.2, fun h => ⟨h.symm, h⟩⟩
  | _ :: _ :: _ :: _, _, _, hfew =>
    simp only [List.length_cons] at hfew
    omega

/-- The signatures that were entered, ordered by their keys. -/
def partialSigs (codec : KeyCodec K) (added : List (K × List UInt8)) : List (List UInt8) :=
  (entries (insertAll ∅ (added.map fun e => (codec.toBytes e.1, e.2)))).map Prod.snd

theorem partialSigs_perm (hnodup : (added.map Prod.fst).Nodup) :
    (partialSigs codec added).Perm (added.map Prod.snd) := by
  have hkeys : ((added.map fun e => (codec.toBytes e.1, e.2)).map Prod.fst).Nodup := by
    rw [List.map_map]
    show (added.map (codec.toBytes ∘ Prod.fst)).Nodup
    rw [← List.map_map]
    exact hnodup.map toBytes_injective
  have hentries := (entries_perm hkeys).map Prod.snd
  rwa [List.map_map] at hentries

theorem finalizeLeaves_iff {items : List (List UInt8)} (hpending : Pending codec p i redeem added)
    (hsome : partialSigs codec added ≠ []) (hsigs : ∀ sig ∈ partialSigs codec added, Direct sig)
    (hshort : redeem.length ≤ 255) : FinalizeLeaves prims tx index p i items ↔
      Leaves prims tx index ((if isMultisigScript redeem then [0x00] else []) ++
        (partialSigs codec added).flatMap lengthPrefixed ++ lengthPrefixed redeem) items := by
  obtain ⟨input, hinput, hfinal, hscript, hgathered⟩ := hpending.here
  have hvalues : (entries input.partialSigs).map Prod.snd = partialSigs codec added := by rw [hgathered, partialSigs]
  have hentries : entries input.partialSigs ≠ [] := by
    intro h
    rw [h] at hvalues
    exact hsome hvalues.symm
  have hbuilt : inputScriptSig i input = .ok ((if isMultisigScript redeem then [0x00] else []) ++
      (partialSigs codec added).flatMap lengthPrefixed ++ lengthPrefixed redeem) := by
    have hcheck : ∀ sig ∈ partialSigs codec added, checkPartialSig sig = .ok () := by
      intro sig hsig
      have := (hsigs sig hsig).2
      rw [checkPartialSig, if_neg (by omega)]
    obtain ⟨first, later, hcons⟩ := List.exists_cons_of_ne_nil hentries
    rw [inputScriptSig, hfinal, hcons, hscript]
    show buildP2shScriptSig input redeem = _
    rw [buildP2shScriptSig, hvalues, pushChecked_eq hcheck]
    show (if 255 < redeem.length then _ else _) = _
    rw [if_neg (by omega)]
    rfl
  have hcomplete : isComplete p = true := by
    rw [isComplete, List.all_eq_true]
    intro other hother
    obtain ⟨j, hj, rfl⟩ := List.mem_iff_getElem.mp hother
    by_cases heq : j = i
    · subst heq
      rw [List.getElem?_eq_getElem hj, Option.some.injEq] at hinput
      rw [hinput, inputComplete, if_neg fun h => hentries h.2, if_neg fun h => hentries h.2]
    · exact (hpending.others j _ heq (List.getElem?_eq_getElem hj)).1
  obtain ⟨scripts, hscripts⟩ : ∃ scripts, inputScriptSigs 0 p.inputs = .ok scripts := by
    refine exists_inputScriptSigs fun j other hother => ?_
    rw [Nat.zero_add]
    by_cases heq : j = i
    · subst heq
      rw [hinput, Option.some.injEq] at hother
      exact ⟨_, hother ▸ hbuilt⟩
    · exact (hpending.others j other heq hother).2
  obtain ⟨hlength, hall⟩ := inputScriptSigs_eq_ok hscripts
  obtain ⟨script, hthis, hat⟩ := hall i input hinput
  rw [Nat.zero_add, hbuilt, Except.ok.injEq] at hthis
  have hcounted : scripts.length ≤ p.unsignedTx.inputs.length := by
    rw [hlength]
    exact hpending.counted
  obtain ⟨entered, hentered, hsig⟩ := enterScripts_getElem hcounted hat
  have hfinalize : ∃ p', finalize p =
      .ok ({ p.unsignedTx with inputs := enterScripts p.unsignedTx.inputs scripts }, p') := by
    have hfits : ¬ p.unsignedTx.inputs.length < scripts.length := by omega
    simp only [finalize, hcomplete, hscripts, hfits, Bool.not_true, Bool.false_eq_true, if_false]
    exact ⟨_, rfl⟩
  obtain ⟨p', hfinalize⟩ := hfinalize
  rw [hthis, ← hsig]
  constructor
  · rintro ⟨finalTx, p'', found, hrun, hfound, hleaves⟩
    rw [hfinalize] at hrun
    cases hrun
    rw [hentered] at hfound
    cases hfound
    exact hleaves
  · intro hleaves
    exact ⟨_, p', entered, hfinalize, hentered, hleaves⟩

theorem createMultisigInput_eq (hsigs : ∀ sig ∈ signatures, Direct sig) (hshort : redeem.length ≤ 255) :
    createMultisigInput signatures redeem = .ok (0x00 :: signatures.flatMap lengthPrefixed ++ lengthPrefixed redeem) := by
  have hcheck : ∀ sig ∈ signatures, checkSignature sig = .ok () := by
    intro sig hsig
    obtain ⟨hpos, hle⟩ := hsigs sig hsig
    rw [checkSignature, if_neg (by rintro rfl; simp at hpos), if_neg (by omega)]
  rw [createMultisigInput, pushChecked_eq hcheck]
  show (if 255 < redeem.length then _ else _) = _
  rw [if_neg (by omega)]
  rfl

theorem createMultisigInput_large (hlarge : 255 < redeem.length) (script : List UInt8) :
    createMultisigInput signatures redeem ≠ .ok script := by
  intro h
  obtain ⟨sigs, -, h⟩ := except_bind_eq_ok.mp h
  rw [if_pos hlarge] at h
  cases h

theorem template_length {m n : ℕ} {keys : List (List UInt8)} (hkeys : ∀ key ∈ keys, key.length = 33) :
    (template m n keys []).length = 3 + 34 * keys.length := by
  have hsum : (keys.flatMap lengthPrefixed).length = 34 * keys.length := by
    induction keys with
    | nil => rfl
    | cons key keys ih =>
      rw [List.forall_mem_cons] at hkeys
      rw [List.flatMap_cons, List.length_append, ih hkeys.2, lengthPrefixed, List.length_cons, List.length_cons, hkeys.1]
      omega
  rw [template, List.append_nil, List.length_append, List.length_cons, hsum]
  show 34 * keys.length + 1 + 2 = _
  omega

theorem isMultisigScript_template {m n : ℕ} {keys : List (List UInt8)} (hm : 1 ≤ m ∧ m ≤ 16)
    (hkeys : ∀ key ∈ keys, key.length = 33) : isMultisigScript (template m n keys []) = decide (2 ≤ keys.length) := by
  have hlength := @template_length m n _ hkeys
  have hlast : (template m n keys []).getD ((template m n keys []).length - 1) 0 = 0xae := by
    simp [template, List.getD_eq_getElem?_getD]
  have hfirst : (template m n keys []).getD 0 0 = opNumber m := rfl
  obtain ⟨hlow, hhigh⟩ := opNumber_range hm
  have hrange : ¬ (opNumber m < 0x51 ∨ 0x60 < opNumber m) := by
    rintro (h | h)
    · exact absurd hlow (UInt8.not_le.mpr h)
    · exact absurd hhigh (UInt8.not_le.mpr h)
  rw [isMultisigScript, hlast, hfirst, if_neg (not_not.mpr rfl), if_neg hrange]
  by_cases htwo : 2 ≤ keys.length
  · rw [if_neg (by omega), decide_eq_true htwo]
  · rw [if_pos (by omega), decide_eq_false htwo]

/-- What verifies is a DER encoding of two numbers below the order of the curve. -/
def DerSizes (prims : Primitives) : Prop :=
  ∀ key der digest, prims.verifyEcdsa key der digest = true → 8 ≤ der.length ∧ der.length ≤ 72

theorem SignedBy.direct (hder : DerSizes prims) (h : SignedBy prims codec config signed) :
    ∀ e ∈ signed, Direct e.2 := by
  intro e he
  obtain ⟨digest, hsigns⟩ := h.valid e he
  simp only [signs, Bool.and_eq_true] at hsigns
  have hsize := hder _ _ _ hsigns.2
  rw [List.length_dropLast] at hsize
  unfold Direct
  omega

theorem scriptsigs_exact_iff {m : ℕ} {keys : List K} (hder : DerSizes prims)
    (hnew : MultisigConfig.new m keys = .ok config) (hredeem : createMultisigScript codec config = .ok redeem)
    (hsigned : SignedBy prims codec config signed) (hadded : added.Perm signed)
    (hpending : Pending codec p i redeem added) :
    (FinalizeLeaves prims tx index p i ([] :: signed.map Prod.snd ++ [redeem]) ∧
      CreateLeaves prims tx index (signed.map Prod.snd) redeem ([] :: signed.map Prod.snd ++ [redeem])) ↔
      keys.length = 2 ∧ signed.Pairwise fun a b => codec.toBytes a.1 < codec.toBytes b.1 ∨ a.2 = b.2 := by
  obtain ⟨rfl, hpos, hle, hfew⟩ := MultisigScripts.new_eq_ok.mp hnew
  rw [MultisigScripts.createMultisigScript_eq ⟨hpos, hle, show keys.length ≤ 16 by omega, rfl⟩, Except.ok.injEq] at hredeem
  change template m keys.length (keys.map codec.toBytes) [] = redeem at hredeem
  have hcompressed : ∀ key ∈ keys.map codec.toBytes, key.length = 33 := by
    intro key hkey
    obtain ⟨k, -, rfl⟩ := List.mem_map.mp hkey
    exact codec.toBytes_length k
  have hkeys : ∀ key ∈ keys.map codec.toBytes, Direct key := fun key hkey => by
    rw [Direct, hcompressed key hkey]
    decide
  have hlength : redeem.length = 3 + 34 * keys.length := by
    rw [← hredeem, template_length hcompressed, List.length_map]
  have hmultisig : isMultisigScript redeem = decide (2 ≤ keys.length) := by
    rw [← hredeem, isMultisigScript_template ⟨hpos, by omega⟩ hcompressed, List.length_map]
  have hdirect := hsigned.direct hder
  have hsigs : ∀ sig ∈ signed.map Prod.snd, Direct sig := by
    intro sig hsig
    obtain ⟨e, he, rfl⟩ := List.mem_map.mp hsig
    exact hdirect e he
  have hnodup : (added.map Prod.fst).Nodup := (hadded.map Prod.fst).nodup_iff.mpr hsigned.nodup
  have hperm : (partialSigs codec added).Perm (signed.map Prod.snd) := (partialSigs_perm hnodup).trans (hadded.map _)
  have hgathered : ∀ sig ∈ partialSigs codec added, Direct sig := fun sig hsig => hsigs sig (hperm.mem_iff.mp hsig)
  have hcount : signed.length = m := hsigned.count
  have hmany : (partialSigs codec added).length = signed.length := by
    rw [hperm.length_eq, List.length_map]
  have hsome : partialSigs codec added ≠ [] := List.ne_nil_of_length_pos (by omega)
  by_cases hsmall : keys.length ≤ 2
  · have hboth {sigs : List (List UInt8)} (h : ∀ sig ∈ sigs, Direct sig) : ∀ item ∈ sigs ++ [redeem], Direct item := by
      intro item hitem
      obtain hsig | hscript := List.mem_append.mp hitem
      · exact h item hsig
      · rw [List.mem_singleton.mp hscript, Direct]
        omega
    have hwritten (sigs : List (List UInt8)) :
        (sigs ++ [redeem]).flatMap lengthPrefixed = sigs.flatMap lengthPrefixed ++ lengthPrefixed redeem := by
      rw [List.flatMap_append, List.flatMap_singleton]
    have hcreate : CreateLeaves prims tx index (signed.map Prod.snd) redeem ([] :: signed.map Prod.snd ++ [redeem]) := by
      refine ⟨_, createMultisigInput_eq hsigs (by omega), ?_⟩
      rw [List.cons_append, ← hwritten]
      refine (leaves_direct (hboth hsigs) ?_).2
      rw [List.length_append, List.length_map, List.length_singleton]
      omega
    have hpushes := @leaves_direct prims tx index _ (hboth hgathered) (by
      rw [List.length_append, List.length_singleton]
      omega)
    rw [and_iff_left hcreate, finalizeLeaves_iff hpending hsome hgathered (by omega), hmultisig, List.append_assoc, ← hwritten]
    by_cases htwo : keys.length = 2
    · rw [htwo, and_iff_right rfl, ← entries_eq_iff hadded hsigned.nodup (by omega)]
      show Leaves prims tx index (0x00 :: (partialSigs codec added ++ [redeem]).flatMap lengthPrefixed) _ ↔
        partialSigs codec added = signed.map Prod.snd
      constructor
      · intro hleaves
        have hsame := leaves_unique hleaves hpushes.2
        exact (List.append_inj_left' (List.cons.inj hsame).2 rfl).symm
      · intro hsame
        rw [← hsame]
        exact hpushes.2
    -- no `OP_0` is written in front of the signature
    · refine iff_of_false (fun hleaves => ?_) fun h => htwo h.1
      rw [decide_eq_false (by omega)] at hleaves
      have hsame := leaves_unique hleaves hpushes.1
      have hempty : Direct [] := hboth hgathered [] (hsame ▸ List.mem_cons_self)
      exact absurd hempty.1 (by decide)
  · refine iff_of_false ?_ fun h => by omega
    rintro ⟨-, script, hcreate, hleaves⟩
    by_cases hlarge : 255 < redeem.length
    · exact createMultisigInput_large hlarge script hcreate
    · rw [createMultisigInput_eq hsigs (by omega), Except.ok.injEq] at hcreate
      subst hredeem
      have hinlined : (template m keys.length (keys.map codec.toBytes) []).length ∈ [105, 139, 173, 207, 241] := by
        simp only [List.mem_cons, List.not_mem_nil, or_false]
        omega
      rw [← hcreate] at hleaves
      exact not_leaves_inlined ⟨hpos, by omega⟩ ⟨by omega, by omega⟩ hkeys hsigs hinlined hleaves

end Exactness

section Example

open MultisigScripts (shapeCodec generatorKey)

/-- A curve on which everything of the size of a signature is one. -/
def lenient : Primitives :=
  { keyless with
    publicKey := fun _ => .ok ()
    fromDer := fun _ => .ok ()
    verifyEcdsa := fun _ der _ => 8 ≤ der.length && der.length ≤ 72 }

theorem lenient_sizes : DerSizes lenient := fun _ _ _ h => by
  simpa [lenient] using h

/-- Twice and three times the generator. -/
def secondKey : List UInt8 :=
  [0x02, 0xc6, 0x04, 0x7f, 0x94, 0x41, 0xed, 0x7d, 0x6d, 0x30, 0x45, 0x40, 0x6e, 0x95, 0xc0, 0x7c, 0xd8, 0x5c, 0x77,
    0x8e, 0x4b, 0x8c, 0xef, 0x3c, 0xa7, 0xab, 0xac, 0x09, 0xb9, 0x5c, 0x70, 0x9e, 0xe5]

def thirdKey : List UInt8 :=
  [0x02, 0xf9, 0x30, 0x8a, 0x01, 0x92, 0x58, 0xc3, 0x10, 0x49, 0x34, 0x4f, 0x85, 0xf8, 0x9d, 0x52, 0x29, 0xb5, 0x31,
    0xc8, 0x45, 0x83, 0x6f, 0x99, 0xb0, 0x86, 0x01, 0xf1, 0x13, 0xbc, 0xe0, 0x36, 0xf9]

/-- A signature of two numbers of one byte, and the byte of its type. -/
def smallSig (r s : UInt8) : List UInt8 := [0x30, 0x06, 0x02, 0x01, r, 0x02, 0x01, s, 0x01]

def curveKeys : List {b : List UInt8 // b.length = 33 ∧ (b.head? = some 2 ∨ b.head? = some 3)} :=
  [⟨generatorKey, by decide⟩, ⟨secondKey, by decide⟩, ⟨thirdKey, by decide⟩]

/-- The first two keys sign. -/
def twoSigned : List ({b : List UInt8 // b.length = 33 ∧ (b.head? = some 2 ∨ b.head? = some 3)} × List UInt8) :=
  (curveKeys.take 2).zip [smallSig 1 2, smallSig 3 4]

theorem twoSigned_signedBy (n : ℕ) (hn : 2 ≤ n) : SignedBy lenient shapeCodec ⟨2, n, curveKeys.take n⟩ twoSigned where
  count := rfl
  order := (List.take_sublist_take_left hn : (curveKeys.take 2).Sublist (curveKeys.take n))
  nodup := by decide
  valid := by
    intro e he
    refine ⟨Bytes.Bytes32.zero, ?_⟩
    fin_cases he
    · rfl
    · rfl

def pendingPsbt : Psbt :=
  { unsignedTx := ⟨2, [⟨⟨Bytes.Bytes32.zero, 0⟩, [], 0xffffffff, ⟨[]⟩⟩], [⟨900, [0x51]⟩], 0⟩
    version := 0
    inputs := [{ PsbtInput.default with
      redeemScript := some (template 2 2 [generatorKey, secondKey] [])
      partialSigs := insertAll ∅ (twoSigned.reverse.map fun e => (shapeCodec.toBytes e.1, e.2)) }]
    outputs := [.default]
    xpubs := ∅
    proprietary := ∅ }

theorem pendingPsbt_pending :
    Pending shapeCodec pendingPsbt 0 (template 2 2 [generatorKey, secondKey] []) twoSigned.reverse where
  here := ⟨_, rfl, rfl, rfl, rfl⟩
  others := by
    intro j other hj hother
    cases j with
    | zero => exact absurd rfl hj
    | succ j => cases hother
  counted := le_rfl

theorem two_of_two_leaves : (FinalizeLeaves lenient emptyTx 0 pendingPsbt 0
        ([] :: twoSigned.map Prod.snd ++ [template 2 2 [generatorKey, secondKey] []]) ∧
      CreateLeaves lenient emptyTx 0 (twoSigned.map Prod.snd) (template 2 2 [generatorKey, secondKey] [])
        ([] :: twoSigned.map Prod.snd ++ [template 2 2 [generatorKey, secondKey] []])) ↔
      (curveKeys.take 2).length = 2 ∧
        twoSigned.Pairwise fun a b => shapeCodec.toBytes a.1 < shapeCodec.toBytes b.1 ∨ a.2 = b.2 :=
  scriptsigs_exact_iff lenient_sizes (show MultisigConfig.new 2 (curveKeys.take 2) = .ok _ from rfl) rfl
    (twoSigned_signedBy 2 le_rfl) twoSigned.reverse_perm pendingPsbt_pending

/-- Two of three keys: the redeem script is 105 bytes long, and `0x69` is `OP_VERIFY`. -/
theorem two_of_three_fails :
    ¬ CreateLeaves lenient emptyTx 0 (twoSigned.map Prod.snd) (template 2 3 (curveKeys.map Subtype.val) [])
        ([] :: twoSigned.map Prod.snd ++ [template 2 3 (curveKeys.map Subtype.val) []]) ∧
      MultisigConfig.new 2 curveKeys = .ok ⟨2, 3, curveKeys⟩ ∧
      createMultisigScript shapeCodec ⟨2, 3, curveKeys⟩ = .ok (template 2 3 (curveKeys.map Subtype.val) []) ∧
      SignedBy lenient shapeCodec ⟨2, 3, curveKeys⟩ twoSigned := by
  refine ⟨?_, rfl, rfl, twoSigned_signedBy 3 (by decide)⟩
  rintro ⟨script, hcreate, final, hrun, -⟩
  have hscript : createMultisigInput (twoSigned.map Prod.snd) (template 2 3 (curveKeys.map Subtype.val) []) =
      .ok (0x00 :: (twoSigned.map Prod.snd).flatMap lengthPrefixed ++
        lengthPrefixed (template 2 3 (curveKeys.map Subtype.val) [])) := rfl
  rw [hscript, Except.ok.injEq] at hcreate
  rw [← hcreate] at hrun
  have hfails : execute lenient emptyTx 0 (0x00 :: (twoSigned.map Prod.snd).flatMap lengthPrefixed ++
      lengthPrefixed (template 2 3 (curveKeys.map Subtype.val) [])) .new = .error .stackUnderflow := by
    decide +kernel
  rw [hfails] at hrun
  cases hrun

end Example

end KuberCoin.MultisigInputs
