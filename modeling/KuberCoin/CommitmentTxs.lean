import KuberCoin.Channels
import KuberCoin.Sighashes

/-!
The transactions that end a channel (crate `lightning`, `funding.rs`): the cooperative close, the
commitment and the commitment with anchors. Each party is charged one half of the fee, rounded down,
by a subtraction that saturates, and an output that is not above the dust threshold is dropped.
-/
namespace KuberCoin.CommitmentTxs

open Bytes Transactions Channels Sighashes BlockEffects

section Scripts

variable (sha256 : Sha256) (ripemd160 : List UInt8 → List UInt8)

/-- `PublicKey::hash`. -/
def keyHash (pubkey : List UInt8) : List UInt8 := ripemd160 (sha256 pubkey).bytes

/-- `Script::new_p2pkh`. -/
def newP2pkh (pubkeyHash : List UInt8) : List UInt8 := [0x76, 0xa9, 20] ++ pubkeyHash ++ [0x88, 0xac]

/-- `Script::new_p2pkh_sig`. -/
def newP2pkhSig (signature pubkey : List UInt8) : List UInt8 :=
  UInt8.ofNat signature.length :: signature ++ UInt8.ofNat pubkey.length :: pubkey

/-- The bytes of a number below `2 ^ 64`, least significant first, without leading zeros. -/
def lowBytes : ℕ → ℕ → List UInt8
  | 0, _ => []
  | fuel + 1, n => if n = 0 then [] else UInt8.ofNat n :: lowBytes fuel (n / 256)

/-- The sign goes to the highest bit, into a byte of its own if that bit is taken. -/
def withSign (negative : Bool) (buf : List UInt8) : List UInt8 :=
  match buf.getLast? with
  | none => buf
  | some last =>
      if last &&& 0x80 ≠ 0 then buf ++ [if negative then 0x80 else 0x00]
      else if negative then buf.dropLast ++ [last ||| 0x80]
      else buf

def pushNumber (n : Int64) : List UInt8 :=
  if n = 0 then [0x00]
  else if 1 ≤ n ∧ n ≤ 16 then [0x50 + n.toUInt64.toUInt8]
  else
    let buf := withSign (decide (n < 0)) (lowBytes 8 n.toInt.natAbs)
    UInt8.ofNat buf.length :: buf

/-- The script of the local party's delayed output. -/
def buildCsvScript (delay : UInt32) (pubkeyHash : List UInt8) : List UInt8 :=
  pushNumber (Int64.ofNat delay.toNat) ++ [0xb2, 0x75, 0x76, 0xa9, 0x14] ++ pubkeyHash ++ [0x88, 0xac]

def buildAnchorScript (pubkeyHash : List UInt8) : List UInt8 :=
  [0x76, 0xa9, 0x14] ++ pubkeyHash ++ [0x88, 0xac, 0x73, 0x64, 0x60, 0xb2, 0x68]

end Scripts

section Builders

variable (sha256 : Sha256) (ripemd160 : List UInt8 → List UInt8)

/-- A private key: the bytes of its public key, and what it signs digests with. -/
structure PrivateKey where
  publicKey : List UInt8
  sign : Bytes32 → List UInt8

/-- `Transaction::sign_input`. -/
def signInput (tx : Transaction) (index : ℕ) (key : PrivateKey) : Except String Transaction :=
  (signatureHash sha256 tx index).map fun sighash =>
    { tx with
      inputs := tx.inputs.modify index fun i =>
        { i with scriptSig := newP2pkhSig (key.sign sighash) key.publicKey } }

/-- An output above the dust threshold. -/
def outputAboveDust (value : UInt64) (script : List UInt8) : List TxOutput :=
  if 546 < value then [⟨value, script⟩] else []

/-- The transaction that spends the funding output, signed; `empty` is the text for no outputs. -/
def spendFunding (c : Channel) (outputs : List TxOutput) (localKey : PrivateKey) (empty : String) :
    Except LightningError Transaction :=
  if outputs = [] then .error (.paymentFailed empty)
  else
    let input : TxInput := ⟨⟨c.fundingTxid, c.fundingVout⟩, [], 0xffffffff, Witness.empty⟩
    match signInput sha256 ⟨2, [input], outputs, 0⟩ 0 localKey with
    | .ok tx => .ok tx
    | .error e => .error (.paymentFailed ("signing failed: " ++ e))

def buildClosingTx (c : Channel) (localKey : PrivateKey) (remotePubkey : List UInt8) (fee : UInt64) :
    Except LightningError Transaction :=
  let halfFee := fee / 2
  let localReceives := saturatingSub c.localBalance halfFee
  let remoteReceives := saturatingSub c.remoteBalance halfFee
  spendFunding sha256 c
    (outputAboveDust localReceives (newP2pkh (keyHash sha256 ripemd160 localKey.publicKey)) ++
      outputAboveDust remoteReceives (newP2pkh (keyHash sha256 ripemd160 remotePubkey)))
    localKey "both outputs below dust after fees"

def buildCommitmentTx (c : Channel) (localKey : PrivateKey) (remotePubkey : List UInt8) (csvDelay : UInt32)
    (fee : UInt64) : Except LightningError Transaction :=
  let halfFee := fee / 2
  let localReceives := saturatingSub c.localBalance halfFee
  let remoteReceives := saturatingSub c.remoteBalance halfFee
  spendFunding sha256 c
    (outputAboveDust remoteReceives (newP2pkh (keyHash sha256 ripemd160 remotePubkey)) ++
      outputAboveDust localReceives (buildCsvScript csvDelay (keyHash sha256 ripemd160 localKey.publicKey)))
    localKey "both outputs below dust after fees"

def anchorValue : UInt64 := 330

def buildAnchorCommitmentTx (c : Channel) (localKey : PrivateKey) (remotePubkey : List UInt8)
    (csvDelay : UInt32) (fee : UInt64) : Except LightningError Transaction :=
  let halfFee := fee / 2
  let anchorCost := anchorValue * 2
  let localReceives := saturatingSub (saturatingSub c.localBalance halfFee) (anchorCost / 2)
  let remoteReceives := saturatingSub (saturatingSub c.remoteBalance halfFee) (anchorCost / 2)
  spendFunding sha256 c
    (outputAboveDust remoteReceives (newP2pkh (keyHash sha256 ripemd160 remotePubkey)) ++
      outputAboveDust localReceives (buildCsvScript csvDelay (keyHash sha256 ripemd160 localKey.publicKey)) ++
      [⟨anchorValue, buildAnchorScript (keyHash sha256 ripemd160 localKey.publicKey)⟩,
        ⟨anchorValue, buildAnchorScript (keyHash sha256 ripemd160 remotePubkey)⟩])
    localKey "all outputs below dust after fees + anchors"

end Builders

section Totals

variable {sha256 : Sha256} {ripemd160 : List UInt8 → List UInt8} {c : Channel} {outputs : List TxOutput}
  {localKey : PrivateKey} {empty : String}

/-- The three builders. -/
inductive Builder where
  | closing
  | commitment (csvDelay : UInt32)
  | anchored (csvDelay : UInt32)

variable (sha256 ripemd160) in
def Builder.build (c : Channel) (localKey : PrivateKey) (remotePubkey : List UInt8) (fee : UInt64) :
    Builder → Except LightningError Transaction
  | .closing => buildClosingTx sha256 ripemd160 c localKey remotePubkey fee
  | .commitment csvDelay => buildCommitmentTx sha256 ripemd160 c localKey remotePubkey csvDelay fee
  | .anchored csvDelay => buildAnchorCommitmentTx sha256 ripemd160 c localKey remotePubkey csvDelay fee

/-- What each party pays for its anchor. -/
def Builder.anchor : Builder → ℕ
  | .closing => 0
  | .commitment _ => 0
  | .anchored _ => 330

/-- The number of anchor outputs. -/
def Builder.anchors : Builder → ℕ
  | .closing => 0
  | .commitment _ => 0
  | .anchored _ => 2

def total (tx : Transaction) : ℕ := (tx.outputs.map fun o => o.value.toNat).sum

/-- The outputs and the fee are covered by the capacity, and at most 546 are missing for each party that
has no output. -/
def Respects (b : Builder) (capacity fee : ℕ) (tx : Transaction) : Prop :=
  total tx + fee ≤ capacity ∧ capacity ≤ total tx + fee + 546 * (2 + b.anchors - tx.outputs.length)

/-- A balance from which an output is made. -/
def Keeps (b : Builder) (fee balance : ℕ) : Prop := fee / 2 + b.anchor + 546 < balance

instance (b : Builder) (fee balance : ℕ) : Decidable (Keeps b fee balance) :=
  inferInstanceAs (Decidable (_ < _))

/-- The fee is even if both parties have an output; a party without one has the larger half of the fee and
its anchor; and two without have them together. -/
def Bears (b : Builder) (fee ours theirs : ℕ) : Prop :=
  if Keeps b fee ours then
    if Keeps b fee theirs then fee % 2 = 0 else fee - fee / 2 + b.anchor ≤ theirs
  else
    if Keeps b fee theirs then fee - fee / 2 + b.anchor ≤ ours
    else b.anchors = 0 ∨ fee + 2 * b.anchor ≤ ours + theirs

instance (b : Builder) (fee ours theirs : ℕ) : Decidable (Bears b fee ours theirs) :=
  inferInstanceAs (Decidable (ite _ (ite _ _ _) (ite _ _ _)))

theorem spendFunding_eq_ok : (∃ tx, spendFunding sha256 c outputs localKey empty = .ok tx) ↔ outputs ≠ [] := by
  unfold spendFunding
  by_cases hempty : outputs = []
  · simp [hempty]
  · simp [hempty, signInput, signatureHash, signatureHashWithType, sighashAll, sighashSingle, Except.map]

theorem spendFunding_outputs {tx : Transaction} (h : spendFunding sha256 c outputs localKey empty = .ok tx) :
    tx.outputs = outputs := by
  unfold spendFunding at h
  split at h
  next => cases h
  next =>
    simp only at h
    split at h
    next signed hsigned =>
      obtain rfl := Except.ok.inj h
      obtain ⟨sighash, -, hsigned⟩ : ∃ sighash, _ ∧ _ = signed := by
        unfold signInput at hsigned
        cases hdigest : signatureHash sha256 _ 0 with
        | error e =>
          rw [hdigest] at hsigned
          cases hsigned
        | ok sighash =>
          rw [hdigest] at hsigned
          exact ⟨sighash, trivial, Except.ok.inj hsigned⟩
      rw [← hsigned]
    next => cases h

/-- What a party gets, and whether that is an output. -/
def received (b : Builder) (fee balance : ℕ) : ℕ := if Keeps b fee balance then balance - fee / 2 - b.anchor else 0

def kept (b : Builder) (fee balance : ℕ) : ℕ := if Keeps b fee balance then 1 else 0

theorem outputAboveDust_spec {b : Builder} {fee balance : ℕ} {value : UInt64}
    (hvalue : value.toNat = balance - fee / 2 - b.anchor) (script : List UInt8) :
    ((outputAboveDust value script).map fun o => o.value.toNat).sum = received b fee balance ∧
      (outputAboveDust value script).length = kept b fee balance := by
  have hdust : (546 < value) ↔ Keeps b fee balance := by
    rw [UInt64.lt_iff_toNat_lt, hvalue]
    unfold Keeps
    have hlimit : (546 : UInt64).toNat = 546 := rfl
    omega
  unfold outputAboveDust received kept
  by_cases hkeeps : Keeps b fee balance
  · rw [if_pos (hdust.mpr hkeeps), if_pos hkeeps, if_pos hkeeps]
    simp [hvalue]
  · rw [if_neg fun h => hkeeps (hdust.mp h), if_neg hkeeps, if_neg hkeeps]
    simp

theorem half_toNat (fee : UInt64) : (fee / 2).toNat = fee.toNat / 2 := by
  rw [UInt64.toNat_div]
  rfl

theorem build_spec (b : Builder) (c : Channel) (localKey : PrivateKey) (remotePubkey : List UInt8) (fee : UInt64) :
    ∃ outputs empty, b.build sha256 ripemd160 c localKey remotePubkey fee =
        spendFunding sha256 c outputs localKey empty ∧
      (outputs.map fun o => o.value.toNat).sum =
        received b fee.toNat c.localBalance.toNat + received b fee.toNat c.remoteBalance.toNat + 2 * b.anchor ∧
      outputs.length = kept b fee.toNat c.localBalance.toNat + kept b fee.toNat c.remoteBalance.toNat + b.anchors := by
  have hplain : ∀ balance : UInt64, (saturatingSub balance (fee / 2)).toNat = balance.toNat - fee.toNat / 2 := by
    intro balance
    rw [saturatingSub_toNat, half_toNat]
  have hanchored : ∀ balance : UInt64,
      (saturatingSub (saturatingSub balance (fee / 2)) (anchorValue * 2 / 2)).toNat =
        balance.toNat - fee.toNat / 2 - 330 := by
    intro balance
    rw [saturatingSub_toNat, hplain]
    rfl
  cases b with
  | closing =>
    refine ⟨_, _, rfl, ?_, ?_⟩
    · simp only [List.map_append, List.sum_append,
        (outputAboveDust_spec (b := .closing) (hplain _) _).1, Builder.anchor]
      omega
    · simp only [List.length_append, (outputAboveDust_spec (b := .closing) (hplain _) _).2, Builder.anchors]
      omega
  | commitment csvDelay =>
    refine ⟨_, _, rfl, ?_, ?_⟩
    · simp only [List.map_append, List.sum_append,
        (outputAboveDust_spec (b := .commitment csvDelay) (hplain _) _).1, Builder.anchor]
      omega
    · simp only [List.length_append, (outputAboveDust_spec (b := .commitment csvDelay) (hplain _) _).2,
        Builder.anchors]
      omega
  | anchored csvDelay =>
    refine ⟨_, _, rfl, ?_, ?_⟩
    · simp only [List.map_append, List.sum_append,
        (outputAboveDust_spec (b := .anchored csvDelay) (hanchored _) _).1, Builder.anchor, List.map_cons,
        List.map_nil, List.sum_cons, List.sum_nil]
      have hvalue : anchorValue.toNat = 330 := rfl
      omega
    · simp only [List.length_append, (outputAboveDust_spec (b := .anchored csvDelay) (hanchored _) _).2,
        Builder.anchors, List.length_cons, List.length_nil]
      omega

/-- The arithmetic of one builder: what is received respects the capacity exactly when the parties
bear the fee. -/
theorem respects_iff_bears (b : Builder) (fee ours theirs : ℕ) : (0 < kept b fee ours + kept b fee theirs + b.anchors →
      received b fee ours + received b fee theirs + 2 * b.anchor + fee ≤ ours + theirs ∧
        ours + theirs ≤ received b fee ours + received b fee theirs + 2 * b.anchor + fee +
          546 * (2 + b.anchors - (kept b fee ours + kept b fee theirs + b.anchors))) ↔
      Bears b fee ours theirs := by
  have hanchor : b.anchor = 0 ∧ b.anchors = 0 ∨ b.anchor = 330 ∧ b.anchors = 2 := by
    cases b <;> simp [Builder.anchor, Builder.anchors]
  unfold Bears received kept
  by_cases hours : Keeps b fee ours
  · by_cases htheirs : Keeps b fee theirs
    · simp only [hours, htheirs, if_true]
      unfold Keeps at hours htheirs
      omega
    · simp only [hours, htheirs, if_true, if_false]
      unfold Keeps at hours htheirs
      omega
  · by_cases htheirs : Keeps b fee theirs
    · simp only [hours, htheirs, if_true, if_false]
      unfold Keeps at hours htheirs
      omega
    · simp only [hours, htheirs, if_false]
      unfold Keeps at hours htheirs
      omega

theorem build_respects_iff {capacity : ℕ} (b : Builder) (localKey : PrivateKey) (remoteKey : List UInt8) (fee : UInt64)
    (hfunds : c.localBalance.toNat + c.remoteBalance.toNat = capacity) :
    (∀ tx, b.build sha256 ripemd160 c localKey remoteKey fee = .ok tx → Respects b capacity fee.toNat tx) ↔
      Bears b fee.toNat c.localBalance.toNat c.remoteBalance.toNat := by
  obtain ⟨outputs, empty, hbuild, htotal, hlength⟩ :=
    @build_spec sha256 ripemd160 b c localKey remoteKey fee
  rw [← respects_iff_bears, hfunds, ← htotal, ← hlength, hbuild]
  constructor
  · intro hall hpos
    obtain ⟨tx, htx⟩ : ∃ tx, spendFunding sha256 c outputs localKey empty = .ok tx :=
      spendFunding_eq_ok.mpr (List.length_pos_iff.mp hpos)
    have hrespects := hall tx htx
    unfold Respects total at hrespects
    rw [spendFunding_outputs htx] at hrespects
    exact hrespects
  · intro hall tx htx
    have hpos := List.length_pos_iff.mpr (spendFunding_eq_ok.mp ⟨tx, htx⟩)
    unfold Respects total
    rw [spendFunding_outputs htx]
    exact hall hpos

/-- The transactions of an idle channel respect its capacity exactly when the parties bear the fee. -/
theorem channel_txs_respect_iff (sha256 : Sha256) (ripemd160 : List UInt8 → List UInt8)
    (channelId fundingTxid : Bytes32) (fundingVout : UInt32) (capacity localBalance : UInt64)
    (localPubkey remotePubkey : String) (calls : List ChannelCall)
    (hidle : (runCalls sha256 (Channel.new channelId fundingTxid fundingVout capacity localBalance localPubkey
      remotePubkey) calls).pendingHtlcs = []) (b : Builder) (localKey : PrivateKey) (remoteKey : List UInt8)
    (fee : UInt64) :
    let c := runCalls sha256 (Channel.new channelId fundingTxid fundingVout capacity localBalance localPubkey
      remotePubkey) calls
    (∀ tx, b.build sha256 ripemd160 c localKey remoteKey fee = .ok tx →
        Respects b capacity.toNat fee.toNat tx) ↔
      Bears b fee.toNat c.localBalance.toNat c.remoteBalance.toNat := by
  intro c
  have hs : Sound (min localBalance.toNat capacity.toNat) c :=
    (sound_new channelId fundingTxid fundingVout capacity localBalance localPubkey
      remotePubkey).runCalls sha256 calls
  have hcap : c.capacity = capacity := (runCalls_fixed sha256 _ calls).1
  apply build_respects_iff
  have hall := hs.funds
  unfold Channel.funds at hall
  rw [hidle, hcap] at hall
  exact hall

/-- A channel of 100000, and a key that signs nothing. -/
def sampleChannel (localBalance : UInt64) : Channel :=
  Channel.new Bytes32.zero Bytes32.zero 0 100000 localBalance "local" "remote"

def blankKey : PrivateKey := ⟨[2], fun _ => []⟩

def noHash : List UInt8 → List UInt8 := fun _ => List.replicate 20 0

theorem even_fee_respects : Bears .closing 2000 60000 40000 ∧
      ∀ tx, Builder.closing.build Sha256.sha256 noHash (sampleChannel 60000) blankKey [3] 2000 = .ok tx →
        Respects .closing 100000 2000 tx := by
  refine ⟨by decide, ?_⟩
  exact (channel_txs_respect_iff Sha256.sha256 noHash Bytes32.zero Bytes32.zero 0 100000 60000 "local" "remote" [] rfl
    .closing blankKey [3] 2000).mpr (by decide)

/-- A fee of an odd number of units is not paid in full, and a fee that one side cannot share is paid by
half only. -/
theorem fee_not_paid :
    (¬ ∀ tx, Builder.closing.build Sha256.sha256 noHash (sampleChannel 60000) blankKey [3] 2001 = .ok tx →
      Respects .closing 100000 2001 tx) ∧
    ¬ ∀ tx, (Builder.commitment 144).build Sha256.sha256 noHash (sampleChannel 100000) blankKey [3] 2000 = .ok tx →
      Respects (.commitment 144) 100000 2000 tx := by
  constructor
  · intro h
    have hbears := (build_respects_iff .closing blankKey [3] 2001 rfl).mp h
    exact absurd hbears (by decide)
  · intro h
    have hbears := (build_respects_iff (.commitment 144) blankKey [3] 2000 rfl).mp h
    exact absurd hbears (by decide)

end Totals

end KuberCoin.CommitmentTxs
