import KuberCoin.Blocks
import Mathlib.Algebra.BigOperators.Intervals

/-!
Consensus constants, the subsidy schedule (crate `consensus`) and the parameters
and genesis blocks of the three networks (crate `testnet`).
Only the parameters that block acceptance reads are kept.
-/
namespace KuberCoin.Params

open Bytes Transactions Blocks

/-- Supply cap in satoshis. -/
def maxSupply : UInt64 := 2100000000000000

def initialBlockReward : UInt64 := 5000000000

def halvingInterval : ℕ := 210000

/-- How far a block's timestamp may be ahead of the clock, in seconds. -/
def maxFutureBlockTimeSecs : UInt64 := 7200

def blockSubsidy (height : ℕ) : UInt64 :=
  let halvings := height / halvingInterval
  if halvings ≥ 64 then 0 else initialBlockReward >>> UInt64.ofNat halvings

inductive Network where
  | mainnet
  | testnet
  | regtest
deriving DecidableEq

structure NetworkParams where
  initialBlockReward : UInt64
  targetBlockTime : UInt64
  difficultyAdjustmentInterval : ℕ
  maxDifficultyAdjustmentFactor : UInt64
  genesisBits : UInt32
  allowMinDifficultyBlocks : Bool
  assumeValidBlock : Option Bytes32

namespace NetworkParams

def mainnet : NetworkParams :=
  { initialBlockReward := 5000000000
    targetBlockTime := 600
    difficultyAdjustmentInterval := 2016
    maxDifficultyAdjustmentFactor := 4
    genesisBits := 0x1d00ffff
    allowMinDifficultyBlocks := false
    assumeValidBlock := none }

def testnet : NetworkParams :=
  { initialBlockReward := 5000000000
    targetBlockTime := 600
    difficultyAdjustmentInterval := 2016
    maxDifficultyAdjustmentFactor := 4
    genesisBits := 0x1e0fffff
    allowMinDifficultyBlocks := true
    assumeValidBlock := none }

def regtest : NetworkParams :=
  { initialBlockReward := 5000000000
    targetBlockTime := 1
    difficultyAdjustmentInterval := 1
    maxDifficultyAdjustmentFactor := 4
    genesisBits := 0x207fffff
    allowMinDifficultyBlocks := true
    assumeValidBlock := none }

def forNetwork : Network → NetworkParams
  | .mainnet => mainnet
  | .testnet => testnet
  | .regtest => regtest

end NetworkParams

def genesisTimestamp (_ : Network) : UInt64 := 1706832000

def genesisNonce : Network → UInt64
  | .mainnet => 2083236893
  | .testnet => 414098458
  | .regtest => 0

def genesisMessage : Network → List UInt8
  | .mainnet =>
      "The Times 03/Jan/2009 Chancellor on brink of second bailout for banks - KuberCoin Genesis".toUTF8.toList
  | .testnet => "KuberCoin Testnet Genesis Block".toUTF8.toList
  | .regtest => "KuberCoin Regtest Genesis Block".toUTF8.toList

def createGenesisCoinbase (network : Network) (reward : UInt64) : Transaction :=
  { version := 1
    inputs := [⟨OutPoint.null, genesisMessage network, 0xffffffff, Witness.empty⟩]
    outputs := [⟨reward, [0x51]⟩]
    lockTime := 0 }

/-- The version `BlockHeader::with_height` writes. -/
def headerVersion : Int32 := 0x20000000

/-- The genesis block; its merkle root hashes the txid once more. -/
def genesisBlock (sha256 : Sha256) (network : Network) : Block :=
  let params := NetworkParams.forNetwork network
  let coinbase := createGenesisCoinbase network params.initialBlockReward
  { header :=
      { version := headerVersion
        prevHash := Bytes32.zero
        merkleRoot := sha256d sha256 (coinbase.txid sha256).bytes
        timestamp := genesisTimestamp network
        bits := params.genesisBits
        nonce := genesisNonce network
        height := 0 }
    transactions := [coinbase] }

section Supply

/-- The subsidy of an era. -/
def eraSubsidy (halvings : ℕ) : ℕ := if halvings ≥ 64 then 0 else 5000000000 / 2 ^ halvings

theorem blockSubsidy_toNat (height : ℕ) : (blockSubsidy height).toNat = eraSubsidy (height / halvingInterval) := by
  unfold blockSubsidy eraSubsidy
  simp only
  split
  · rfl
  · rename_i hlt
    have hsmall : height / halvingInterval < 64 := by omega
    have hmod : height / halvingInterval % 64 = height / halvingInterval := Nat.mod_eq_of_lt hsmall
    have hword : height / halvingInterval % 2 ^ 64 = height / halvingInterval :=
      Nat.mod_eq_of_lt (by omega)
    rw [UInt64.toNat_shiftRight, UInt64.toNat_ofNat', hword, hmod, Nat.shiftRight_eq_div_pow]
    rfl

/-- Halving at least halves. -/
theorem two_mul_eraSubsidy_succ_le (e : ℕ) : 2 * eraSubsidy (e + 1) ≤ eraSubsidy e := by
  unfold eraSubsidy
  by_cases hlast : e + 1 ≥ 64
  · simp [hlast]
  · rw [if_neg hlast, if_neg (by omega), pow_succ, ← Nat.div_div_eq_div_mul]
    exact Nat.mul_div_le _ 2

/-- The subsidies of the first `n` blocks. -/
def mintedBelow (n : ℕ) : ℕ := ∑ h ∈ Finset.range n, (blockSubsidy h).toNat

/-- The subsidies still to come in the current era, and twice the era's length of
them after it, never exceed what is left of the cap. -/
theorem mintedBelow_add_le (n : ℕ) :
    mintedBelow n + (2 * halvingInterval - n % halvingInterval) * eraSubsidy (n / halvingInterval) ≤
      maxSupply.toNat := by
  induction n with
  | zero => decide
  | succ n ih =>
    have hpos : n % halvingInterval < halvingInterval := Nat.mod_lt _ (by decide)
    rw [mintedBelow, Finset.sum_range_succ, blockSubsidy_toNat]
    rw [mintedBelow] at ih
    set e := n / halvingInterval with he
    set m := n % halvingInterval with hm
    have hn : n = halvingInterval * e + m := (Nat.div_add_mod n halvingInterval).symm
    by_cases hend : m + 1 < halvingInterval
    · have hdiv : (n + 1) / halvingInterval = e := by
        rw [hn, Nat.add_assoc, Nat.mul_add_div (by decide), Nat.div_eq_of_lt hend, Nat.add_zero]
      have hmod : (n + 1) % halvingInterval = m + 1 := by
        rw [hn, Nat.add_assoc, Nat.mul_add_mod, Nat.mod_eq_of_lt hend]
      rw [hdiv, hmod]
      have hsplit : (2 * halvingInterval - m) * eraSubsidy e =
          (2 * halvingInterval - (m + 1)) * eraSubsidy e + eraSubsidy e := by
        rw [← Nat.succ_mul]
        congr 1
        omega
      omega
    · have hm' : m + 1 = halvingInterval := by omega
      have hdiv : (n + 1) / halvingInterval = e + 1 := by
        rw [hn, Nat.add_assoc, hm', Nat.mul_add_div (by decide), Nat.div_self (by decide)]
      have hmod : (n + 1) % halvingInterval = 0 := by
        rw [hn, Nat.add_assoc, hm', Nat.mul_add_mod, Nat.mod_self]
      rw [hdiv, hmod, Nat.sub_zero]
      have hhalf := Nat.mul_le_mul_left halvingInterval (two_mul_eraSubsidy_succ_le e)
      have hsplit : (2 * halvingInterval - m) * eraSubsidy e =
          halvingInterval * eraSubsidy e + eraSubsidy e := by
        rw [← Nat.succ_mul]
        congr 1
        omega
      have hcomm : 2 * halvingInterval * eraSubsidy (e + 1) =
          halvingInterval * (2 * eraSubsidy (e + 1)) := by ring
      omega

theorem mintedBelow_le_maxSupply (n : ℕ) : mintedBelow n ≤ maxSupply.toNat :=
  le_trans (Nat.le_add_right _ _) (mintedBelow_add_le n)

end Supply

end KuberCoin.Params
