import KuberCoin.Channels
import KuberCoin.PoolEvictions

/-!
The watchtower (crate `lightning`, `watchtower.rs`). The index over the first half of a txid is
overwritten and removed by states of other channels, but it only decides where the search starts.
The justice transaction finds its state by the commitment number, and so takes the first that was
registered under it.
-/
namespace KuberCoin.Watchtowers

open Bytes Transactions Maps Channels PoolEvictions

section Model

structure RevokedState where
  channelId : Bytes32
  commitmentNumber : UInt64
  revocationSecret : Bytes32
  revokedTxid : Option Bytes32
  sweepPubkey : List UInt8
  penaltyAmount : UInt64

structure JusticeTx where
  revokedTxid : Bytes32
  revokedVout : UInt32
  revocationSecret : Bytes32
  sweepPubkey : List UInt8
  amount : UInt64
  fee : UInt64

structure BreachDetection where
  channelId : Bytes32
  commitmentNumber : UInt64
  revokedTxid : Bytes32

structure Watchtower where
  revokedStates : Map Bytes32 (List RevokedState)
  txidIndex : Map (List UInt8) Bytes32
  breachesDetected : UInt64

/-- The first sixteen bytes of a txid. -/
def hint (txid : Bytes32) : List UInt8 := txid.bytes.take 16

/-- The order in which the channels are iterated. -/
structure Scan where
  iter : Map Bytes32 (List RevokedState) → List (Bytes32 × List RevokedState)
  lists : ∀ m, Lists m (iter m)

namespace Watchtower

def new : Watchtower := ⟨∅, ∅, 0⟩

def registerRevokedState (w : Watchtower) (state : RevokedState) : Watchtower :=
  { w with
    txidIndex := state.revokedTxid.elim w.txidIndex fun txid => w.txidIndex.insert (hint txid) state.channelId
    revokedStates := w.revokedStates.insert state.channelId
      ((w.revokedStates.lookup state.channelId).getD [] ++ [state]) }

/-- The first state of a channel with a txid, as the breach it shows. -/
def breachOf (txid channelId : Bytes32) (states : List RevokedState) : Option BreachDetection :=
  (states.find? fun s => s.revokedTxid = some txid).map fun s => ⟨channelId, s.commitmentNumber, txid⟩

def checkTransaction (w : Watchtower) (scan : Scan) (txid : Bytes32) : Option BreachDetection :=
  let fast := (w.txidIndex.lookup (hint txid)).bind fun channelId =>
    (w.revokedStates.lookup channelId).bind (breachOf txid channelId)
  match fast with
  | some b => some b
  | none => (scan.iter w.revokedStates).findSome? fun c => breachOf txid c.1 c.2

def buildJusticeTx (w : Watchtower) (breach : BreachDetection) (revokedVout : UInt32) (fee : UInt64) :
    Except LightningError JusticeTx × Watchtower :=
  match w.revokedStates.lookup breach.channelId with
  | none => (.error (.channelNotFound breach.channelId), w)
  | some states =>
      match states.find? fun s => s.commitmentNumber = breach.commitmentNumber with
      | none => (.error (.paymentFailed "revoked state not found for commitment"), w)
      | some state =>
          if state.penaltyAmount ≤ fee then (.error (.paymentFailed "penalty amount does not cover fee"), w)
          else
            (.ok
              { revokedTxid := breach.revokedTxid
                revokedVout := revokedVout
                revocationSecret := state.revocationSecret
                sweepPubkey := state.sweepPubkey
                amount := saturatingSub state.penaltyAmount fee
                fee := fee },
              { w with breachesDetected := w.breachesDetected + 1 })

def removeChannel (w : Watchtower) (channelId : Bytes32) : Watchtower :=
  match w.revokedStates.lookup channelId with
  | none => w
  | some states =>
      { w with
        revokedStates := w.revokedStates.erase channelId
        txidIndex := eraseAll w.txidIndex (states.filterMap fun s => s.revokedTxid.map hint) }

end Watchtower

inductive WatchCall where
  | register (state : RevokedState)
  | remove (channelId : Bytes32)

def WatchCall.apply (w : Watchtower) : WatchCall → Watchtower
  | .register state => w.registerRevokedState state
  | .remove channelId => w.removeChannel channelId

def watch (calls : List WatchCall) : Watchtower := calls.foldl WatchCall.apply Watchtower.new

end Model

section Held

/-- What a call does to the states held of one channel. -/
def WatchCall.held (channelId : Bytes32) (states : List RevokedState) : WatchCall → List RevokedState
  | .register state => if state.channelId = channelId then states ++ [state] else states
  | .remove id => if id = channelId then [] else states

/-- The states registered for a channel since it was last removed. -/
def held (calls : List WatchCall) (channelId : Bytes32) : List RevokedState :=
  calls.foldl (fun states c => c.held channelId states) []

/-- The states that calls register. -/
def registered (calls : List WatchCall) : List RevokedState :=
  calls.filterMap fun c => match c with
    | .register state => some state
    | .remove _ => none

theorem held_concat (calls : List WatchCall) (c : WatchCall) (channelId : Bytes32) :
    held (calls ++ [c]) channelId = c.held channelId (held calls channelId) := by
  rw [held, List.foldl_append]
  rfl

theorem watch_concat (calls : List WatchCall) (c : WatchCall) : watch (calls ++ [c]) = c.apply (watch calls) := by
  rw [watch, List.foldl_append]
  rfl

theorem lookup_apply (w : Watchtower) (c : WatchCall) (channelId : Bytes32) :
    ((c.apply w).revokedStates.lookup channelId).getD [] = c.held channelId ((w.revokedStates.lookup channelId).getD []) := by
  cases c with
  | register state =>
    change ((w.revokedStates.insert state.channelId _).lookup channelId).getD [] = _
    rw [lookup_insert_eq, WatchCall.held]
    by_cases hid : state.channelId = channelId
    · rw [if_pos hid.symm, if_pos hid, hid]
      rfl
    · rw [if_neg (Ne.symm hid), if_neg hid]
  | remove id =>
    change ((w.removeChannel id).revokedStates.lookup channelId).getD [] =
      if id = channelId then [] else (w.revokedStates.lookup channelId).getD []
    unfold Watchtower.removeChannel
    cases hlook : w.revokedStates.lookup id with
    | none =>
      by_cases hid : id = channelId
      · rw [if_pos hid, ← hid, hlook]
        rfl
      · rw [if_neg hid]
    | some states =>
      change ((w.revokedStates.erase id).lookup channelId).getD [] = _
      rw [lookup_erase_eq]
      by_cases hid : id = channelId
      · rw [if_pos hid.symm, if_pos hid]
        rfl
      · rw [if_neg (Ne.symm hid), if_neg hid]

theorem lookup_watch (calls : List WatchCall) (channelId : Bytes32) :
    ((watch calls).revokedStates.lookup channelId).getD [] = held calls channelId := by
  induction calls using List.reverseRecOn with
  | nil => simp [watch, Watchtower.new, held]
  | append_singleton calls c ih => rw [watch_concat, lookup_apply, ih, held_concat]

end Held

section Watching

variable {channelId txid : Bytes32} {b : BreachDetection} {calls : List WatchCall}

/-- The data a justice transaction takes from a state. -/
def RevokedState.data (s : RevokedState) : Bytes32 × List UInt8 × UInt64 :=
  (s.revocationSecret, s.sweepPubkey, s.penaltyAmount)

/-- After these calls no breach is missed, and the justice transaction of a breach takes its data
from a state with its txid. -/
def Vigilant (calls : List WatchCall) : Prop :=
  ∀ (scan : Scan) (txid : Bytes32),
    ((∃ b, (watch calls).checkTransaction scan txid = some b) ↔
      ∃ channelId, ∃ s ∈ held calls channelId, s.revokedTxid = some txid) ∧
    ∀ b, (watch calls).checkTransaction scan txid = some b →
      (∃ s ∈ held calls b.channelId, s.revokedTxid = some txid ∧ b = ⟨s.channelId, s.commitmentNumber, txid⟩) ∧
      ∀ vout fee j, ((watch calls).buildJusticeTx b vout fee).1 = .ok j →
        j.revokedTxid = txid ∧ ∃ s ∈ registered calls, s.revokedTxid = some txid ∧
          j.revocationSecret = s.revocationSecret ∧ j.sweepPubkey = s.sweepPubkey ∧
          j.amount = saturatingSub s.penaltyAmount fee

/-- The data found under the number of the first state with a txid belongs to the txid. -/
def Matched (calls : List WatchCall) : Prop :=
  ∀ channelId txid s s', (held calls channelId).find? (fun s => s.revokedTxid = some txid) = some s →
    (held calls channelId).find? (fun x => x.commitmentNumber = s.commitmentNumber) = some s' →
    s'.penaltyAmount = 0 ∨ ∃ x ∈ registered calls, x.revokedTxid = some txid ∧ x.data = s'.data

/-- A registration under a number the channel does not hold, or whose txid is not known or already
held there, or whose data may be taken from the first state with the number. -/
def Careful (before : List WatchCall) : WatchCall → Prop
  | .remove _ => True
  | .register state => ∀ txid s', state.revokedTxid = some txid →
      (∀ x ∈ held before state.channelId, x.revokedTxid ≠ some txid) →
      (held before state.channelId).find? (fun x => x.commitmentNumber = state.commitmentNumber) = some s' →
      s'.penaltyAmount = 0 ∨ s'.data = state.data ∨ ∃ x ∈ registered before, x.revokedTxid = some txid ∧ x.data = s'.data

theorem registered_concat (calls : List WatchCall) (c : WatchCall) :
    registered (calls ++ [c]) = registered calls ++ registered [c] := List.filterMap_append

theorem Matched.step {before : List WatchCall} {c : WatchCall} (h : Matched before) (hc : Careful before c) :
    Matched (before ++ [c]) := by
  have hkeep : ∀ {txid : Bytes32} {s' : RevokedState},
      (s'.penaltyAmount = 0 ∨ ∃ x ∈ registered before, x.revokedTxid = some txid ∧ x.data = s'.data) →
      s'.penaltyAmount = 0 ∨ ∃ x ∈ registered (before ++ [c]), x.revokedTxid = some txid ∧ x.data = s'.data := by
    intro txid s' hs'
    obtain hzero | ⟨x, hx, hdata⟩ := hs'
    · exact .inl hzero
    · exact .inr ⟨x, by rw [registered_concat]; exact List.mem_append_left _ hx, hdata⟩
  intro channelId txid s s' hs hs'
  rw [held_concat] at hs hs'
  cases c with
  | remove id =>
    rw [WatchCall.held] at hs hs'
    split at hs
    next => simp at hs
    next hid =>
      rw [if_neg hid] at hs'
      exact hkeep (h channelId txid s s' hs hs')
  | register state =>
    rw [WatchCall.held] at hs hs'
    split at hs
    next hid =>
      rw [if_pos hid] at hs'
      rw [List.find?_append] at hs hs'
      cases hold : (held before channelId).find? fun s => s.revokedTxid = some txid with
      | some s₀ =>
        rw [hold] at hs
        obtain rfl := Option.some.inj hs
        cases hnumber : (held before channelId).find? fun x => x.commitmentNumber = s₀.commitmentNumber with
        | some s₁ =>
          rw [hnumber] at hs'
          obtain rfl := Option.some.inj hs'
          exact hkeep (h channelId txid s₀ s₁ hold hnumber)
        | none =>
          have hself := List.find?_eq_none.mp hnumber s₀ (List.mem_of_find?_eq_some hold)
          simp at hself
      | none =>
        rw [hold] at hs
        have hstate : state.revokedTxid = some txid ∧ s = state := by
          rw [Option.none_or, List.find?_singleton] at hs
          split at hs
          next htxid => exact ⟨of_decide_eq_true htxid, (Option.some.inj hs).symm⟩
          next => cases hs
        obtain ⟨htxid, rfl⟩ := hstate
        have hnew : s ∈ registered (before ++ [.register s]) := by
          rw [registered_concat]
          exact List.mem_append_right _ (List.mem_singleton.mpr rfl)
        cases hnumber : (held before channelId).find? fun x => x.commitmentNumber = s.commitmentNumber with
        | none =>
          rw [hnumber, Option.none_or, List.find?_singleton, if_pos (decide_eq_true rfl)] at hs'
          obtain rfl := Option.some.inj hs'
          exact .inr ⟨s, hnew, htxid, rfl⟩
        | some s₁ =>
          rw [hnumber] at hs'
          obtain rfl := Option.some.inj hs'
          have hfresh : ∀ x ∈ held before s.channelId, x.revokedTxid ≠ some txid := by
            rw [hid]
            exact fun x hx htx => List.find?_eq_none.mp hold x hx (decide_eq_true htx)
          obtain hzero | hdata | hother := hc txid s₁ htxid hfresh (by rw [hid]; exact hnumber)
          · exact .inl hzero
          · exact .inr ⟨s, hnew, htxid, hdata.symm⟩
          · exact hkeep (.inr hother)
    next hid =>
      rw [if_neg hid] at hs'
      exact hkeep (h channelId txid s s' hs hs')

/-- The channels in the order of their ids. -/
def sortedScan : Scan where
  iter m := sortedBindings _ bytes32_rank_injective m
  lists m := lists_sortedBindings _ bytes32_rank_injective m

/-- A registration that is not careful is followed by a wrong justice transaction. -/
theorem Vigilant.careful {before : List WatchCall} {c : WatchCall} (h : Vigilant (before ++ [c])) :
    Careful before c := by
  cases c with
  | remove id => trivial
  | register state =>
    intro txid s' htxid hfresh hs'
    have hheld : held (before ++ [.register state]) state.channelId = held before state.channelId ++ [state] := by
      rw [held_concat, WatchCall.held, if_pos rfl]
    have hstates : (watch (before ++ [.register state])).revokedStates.lookup state.channelId =
        some (held before state.channelId ++ [state]) := by
      rw [watch_concat]
      change ((watch before).revokedStates.insert state.channelId _).lookup state.channelId = _
      rw [lookup_insert_eq, if_pos rfl, lookup_watch]
    have hindex : (watch (before ++ [.register state])).txidIndex.lookup (hint txid) = some state.channelId := by
      rw [watch_concat]
      change (state.revokedTxid.elim _ _ : Map (List UInt8) Bytes32).lookup (hint txid) = _
      rw [htxid, Option.elim_some, lookup_insert_eq, if_pos rfl]
    have hfirst : (held before state.channelId ++ [state]).find? (fun s => s.revokedTxid = some txid) = some state := by
      rw [List.find?_append, List.find?_eq_none.mpr fun x hx => by simpa using hfresh x hx, Option.none_or,
        List.find?_singleton, if_pos (decide_eq_true htxid)]
    have hcheck : (watch (before ++ [.register state])).checkTransaction sortedScan txid =
        some ⟨state.channelId, state.commitmentNumber, txid⟩ := by
      unfold Watchtower.checkTransaction
      simp only [hindex, hstates, Option.bind_some, Watchtower.breachOf, hfirst, Option.map_some]
    by_cases hzero : s'.penaltyAmount = 0
    · exact .inl hzero
    · right
      have hnumber : (held before state.channelId ++ [state]).find?
          (fun x => x.commitmentNumber = state.commitmentNumber) = some s' := by
        rw [List.find?_append, hs']
        rfl
      have hbuilt : ((watch (before ++ [.register state])).buildJusticeTx
          ⟨state.channelId, state.commitmentNumber, txid⟩ 0 0).1 =
            .ok ⟨txid, 0, s'.revocationSecret, s'.sweepPubkey, saturatingSub s'.penaltyAmount 0, 0⟩ := by
        unfold Watchtower.buildJusticeTx
        simp only [hstates, hnumber]
        rw [if_neg]
        intro hle
        exact hzero (UInt64.toNat_inj.mp (Nat.le_zero.mp (UInt64.le_iff_toNat_le.mp hle)))
      obtain ⟨-, x, hx, hxid, hsecret, hsweep, hamount⟩ := ((h sortedScan txid).2 _ hcheck).2 0 0 _ hbuilt
      have hpenalty : s'.penaltyAmount = x.penaltyAmount := by
        have hnat := congrArg UInt64.toNat hamount
        simp only [saturatingSub_toNat] at hnat
        exact UInt64.toNat_inj.mp (by simpa using hnat)
      have hdata : x.data = s'.data := by
        unfold RevokedState.data
        rw [← hsecret, ← hsweep, ← hpenalty]
      rw [registered_concat] at hx
      obtain hold | hnew := List.mem_append.mp hx
      · exact .inr ⟨x, hold, hxid, hdata⟩
      · left
        rw [← List.mem_singleton.mp hnew]
        exact hdata.symm

end Watching

end KuberCoin.Watchtowers
