import KuberCoin.Bytes
import Mathlib.Data.List.Induction

/-!
Soft-fork activation by version bits (crate `consensus`, `version_bits`). A tracker
holds one threshold state for each deployment of a table; at the end of a retarget period
a transition moves them by the median time and by the number of signalling blocks. The
threshold is an integer percentage in 32-bit arithmetic.
-/
namespace KuberCoin.VersionBits

inductive ThresholdState where
  | defined
  | started
  | lockedIn
  | active
  | failed
deriving DecidableEq

/-- Default signalling threshold, in percent. -/
def defaultThresholdPct : UInt32 := 95

structure Bip9Deployment where
  name : String
  bit : UInt8
  startTime : UInt64
  timeout : UInt64
  minActivationHeight : UInt64
  thresholdPct : UInt32
deriving DecidableEq

/-- The arguments of a transition besides the table. -/
structure Period where
  periodHeight : UInt64
  periodLen : UInt64
  mtp : UInt64
  signalCounts : List UInt32
deriving DecidableEq

namespace Period

/-- `signal_counts.get(i).copied().unwrap_or(0)`. -/
def count (p : Period) (i : ℕ) : UInt32 := (p.signalCounts[i]?).getD 0

end Period

/-- `(period_len as u32) * threshold_pct / 100`, which truncates, wraps and rounds down. -/
def threshold (dep : Bip9Deployment) (periodLen : UInt64) : UInt32 :=
  periodLen.toUInt32 * dep.thresholdPct / 100

def nextState (dep : Bip9Deployment) (p : Period) (count : UInt32) :
    ThresholdState → ThresholdState
  | .defined =>
      if p.mtp ≥ dep.timeout then .failed
      else if p.mtp ≥ dep.startTime then .started
      else .defined
  | .started =>
      if p.mtp ≥ dep.timeout then .failed
      else if count ≥ threshold dep p.periodLen then .lockedIn
      else .started
  | .lockedIn => if p.periodHeight ≥ dep.minActivationHeight then .active else .lockedIn
  | .active => .active
  | .failed => .failed

abbrev VersionBitsState := List ThresholdState

/-- `VersionBitsState::new`. -/
def newState (n : ℕ) : VersionBitsState := List.replicate n .defined

/-- The loop over the table from index `i` on; `self.states[i]` panics outside the tracker. -/
def transitionFrom (p : Period) : ℕ → List Bip9Deployment → VersionBitsState → Option VersionBitsState
  | _, [], states => some states
  | i, dep :: rest, states => do
      let state ← states[i]?
      transitionFrom p (i + 1) rest (states.set i (nextState dep p (p.count i) state))

def transition (deployments : List Bip9Deployment) (p : Period) (states : VersionBitsState) :
    Option VersionBitsState :=
  transitionFrom p 0 deployments states

def isActive (states : VersionBitsState) (index : ℕ) : Bool :=
  states[index]? = some .active

/-- A sequence of transitions with one table. -/
def run (deployments : List Bip9Deployment) : List Period → VersionBitsState → Option VersionBitsState
  | [], states => some states
  | p :: rest, states => do
      let states' ← transition deployments p states
      run deployments rest states'

section Transitions

variable {p : Period} {i j : ℕ} {deployments : List Bip9Deployment}
  {states states' : VersionBitsState}

theorem transitionFrom_getElem? (h : transitionFrom p i deployments states = some states') (j : ℕ) : states'[j]? =
      match (if i ≤ j then deployments[j - i]? else none) with
      | some dep => states[j]?.map (nextState dep p (p.count j))
      | none => states[j]? := by
  induction deployments generalizing i states with
  | nil =>
    cases h
    simp
  | cons dep rest ih =>
    rw [transitionFrom] at h
    cases hstate : states[i]? with
    | none => simp [hstate] at h
    | some state =>
      rw [hstate] at h
      rw [ih h]
      have hlen : i < states.length := (List.getElem?_eq_some_iff.mp hstate).1
      obtain hlt | rfl | hgt := Nat.lt_trichotomy j i
      · rw [if_neg (by omega), if_neg (by omega), List.getElem?_set_ne (by omega)]
      · rw [if_neg (by omega), if_pos (le_refl j), Nat.sub_self, List.getElem?_cons_zero,
          List.getElem?_set_self hlen, hstate]
        rfl
      · have hsub : j - i = j - (i + 1) + 1 := by omega
        rw [if_pos (by omega), if_pos (by omega), hsub, List.getElem?_cons_succ,
          List.getElem?_set_ne (by omega)]

theorem transitionFrom_isSome (h : i + deployments.length ≤ states.length) :
    ∃ states', transitionFrom p i deployments states = some states' := by
  induction deployments generalizing i states with
  | nil => exact ⟨states, rfl⟩
  | cons dep rest ih =>
    rw [List.length_cons] at h
    have hget : states[i]? = some states[i] := List.getElem?_eq_getElem (by omega)
    rw [transitionFrom, hget]
    exact ih (by rw [List.length_set]; omega)

theorem transitionFrom_length (h : transitionFrom p i deployments states = some states') :
    states'.length = states.length ∧
      (deployments ≠ [] → i + deployments.length ≤ states.length) := by
  induction deployments generalizing i states with
  | nil =>
    cases h
    exact ⟨rfl, fun hne => absurd rfl hne⟩
  | cons dep rest ih =>
    rw [transitionFrom] at h
    cases hstate : states[i]? with
    | none => simp [hstate] at h
    | some state =>
      rw [hstate] at h
      have hlt : i < states.length := (List.getElem?_eq_some_iff.mp hstate).1
      obtain ⟨hlen, hfit⟩ := ih h
      rw [List.length_set] at hlen hfit
      refine ⟨hlen, fun _ => ?_⟩
      rw [List.length_cons]
      cases rest with
      | nil => exact hlt
      | cons dep' rest =>
        have := hfit (List.cons_ne_nil dep' rest)
        omega

theorem transition_getElem? {dep : Bip9Deployment} (hdep : deployments[j]? = some dep)
    (h : transition deployments p states = some states') :
    states'[j]? = states[j]?.map (nextState dep p (p.count j)) := by
  have hget := transitionFrom_getElem? h j
  rw [if_pos (Nat.zero_le j), Nat.sub_zero, hdep] at hget
  exact hget

end Transitions

section Runs

variable {deployments : List Bip9Deployment} {periods front : List Period} {i n : ℕ}
  {states states' : VersionBitsState} {dep : Bip9Deployment}

/-- One deployment through the periods, on its own. -/
def track (dep : Bip9Deployment) (i : ℕ) (periods : List Period) (state : ThresholdState) :
    ThresholdState :=
  periods.foldl (fun state p => nextState dep p (p.count i) state) state

theorem run_append (front back : List Period) (states : VersionBitsState) :
    run deployments (front ++ back) states = (run deployments front states).bind
      (run deployments back) := by
  induction front generalizing states with
  | nil => rfl
  | cons p front ih =>
    rw [List.cons_append, run, run]
    cases transition deployments p states with
    | none => rfl
    | some states' => exact ih states'

theorem run_getElem? (hdep : deployments[i]? = some dep) (h : run deployments periods states = some states') :
    states'[i]? = states[i]?.map (track dep i periods) := by
  induction periods generalizing states with
  | nil =>
    cases h
    exact (Option.map_id' ..).symm
  | cons p rest ih =>
    rw [run] at h
    cases hstep : transition deployments p states with
    | none => simp [hstep] at h
    | some next =>
      rw [hstep] at h
      rw [ih h, transition_getElem? hdep hstep, Option.map_map]
      rfl

theorem run_length (h : run deployments periods states = some states') : states'.length = states.length ∧
      (deployments ≠ [] → periods ≠ [] → deployments.length ≤ states.length) := by
  induction periods generalizing states with
  | nil =>
    cases h
    exact ⟨rfl, fun _ hne => absurd rfl hne⟩
  | cons p rest ih =>
    rw [run] at h
    cases hstep : transition deployments p states with
    | none => simp [hstep] at h
    | some next =>
      rw [hstep] at h
      obtain ⟨hlen, hfit⟩ := transitionFrom_length hstep
      refine ⟨(ih h).1.trans hlen, fun hne _ => ?_⟩
      have := hfit hne
      omega

end Runs

section Tracks

variable {dep : Bip9Deployment} {i : ℕ} {periods : List Period} {p : Period} {count : UInt32}
  {state : ThresholdState}

/-- The signals of the period are enough. -/
def Signalled (dep : Bip9Deployment) (p : Period) (count : UInt32) : Prop :=
  dep.thresholdPct.toNat * p.periodLen.toNat ≤ count.toNat * 100

instance : Decidable (Signalled dep p count) := inferInstanceAs (Decidable (_ ≤ _))

/-- A count that reaches the integer threshold and not the percentage. -/
def Premature (dep : Bip9Deployment) (p : Period) (count : UInt32) : Prop :=
  threshold dep p.periodLen ≤ count ∧ ¬ Signalled dep p count

theorem threshold_toNat (dep : Bip9Deployment) (periodLen : UInt64) : (threshold dep periodLen).toNat =
      periodLen.toNat % 2 ^ 32 * dep.thresholdPct.toNat % 2 ^ 32 / 100 := by
  unfold threshold
  rw [UInt32.toNat_div, UInt32.toNat_mul, UInt64.toNat_toUInt32]
  rfl

/-- The integer threshold errs on one side only. -/
theorem threshold_le_of_signalled (h : Signalled dep p count) : threshold dep p.periodLen ≤ count := by
  have hwrap : p.periodLen.toNat % 2 ^ 32 * dep.thresholdPct.toNat % 2 ^ 32 ≤
      p.periodLen.toNat * dep.thresholdPct.toNat :=
    (Nat.mod_le _ _).trans (Nat.mul_le_mul_right _ (Nat.mod_le _ _))
  unfold Signalled at h
  rw [Nat.mul_comm] at h
  rw [UInt32.le_iff_toNat_le, threshold_toNat]
  omega

theorem nextState_eq_lockedIn (h : nextState dep p count state = .lockedIn) (hne : state ≠ .lockedIn) :
    state = .started ∧ p.mtp < dep.timeout ∧ threshold dep p.periodLen ≤ count := by
  cases state with
  | started =>
    simp only [nextState] at h
    split_ifs at h with htime hcount
    exact ⟨rfl, UInt64.not_le.mp htime, hcount⟩
  | defined =>
    simp only [nextState] at h
    split_ifs at h
  | lockedIn => exact absurd rfl hne
  | active => cases h
  | failed => cases h

theorem nextState_eq_active (h : nextState dep p count state = .active) (hne : state ≠ .active) :
    state = .lockedIn ∧ p.periodHeight ≥ dep.minActivationHeight := by
  cases state with
  | lockedIn =>
    simp only [nextState] at h
    split_ifs at h with hheight
    exact ⟨rfl, hheight⟩
  | defined =>
    simp only [nextState] at h
    split_ifs at h
  | started =>
    simp only [nextState] at h
    split_ifs at h
  | active => exact absurd rfl hne
  | failed => cases h

theorem track_concat (dep : Bip9Deployment) (i : ℕ) (periods : List Period) (p : Period) (state : ThresholdState) :
    track dep i (periods ++ [p]) state = nextState dep p (p.count i) (track dep i periods state) := by
  simp [track]

theorem track_append (dep : Bip9Deployment) (i : ℕ) (front back : List Period) (state : ThresholdState) :
    track dep i (front ++ back) state = track dep i back (track dep i front state) :=
  List.foldl_append

/-- A state that some period brings was brought by a step from another state. -/
theorem track_reached (h : track dep i periods .defined = state) (hne : state ≠ .defined) :
    ∃ front p back, periods = front ++ p :: back ∧ track dep i front .defined ≠ state ∧
      nextState dep p (p.count i) (track dep i front .defined) = state := by
  induction periods using List.reverseRecOn with
  | nil => exact absurd h.symm hne
  | append_singleton periods p ih =>
    rw [track_concat] at h
    by_cases hlast : track dep i periods .defined = state
    · obtain ⟨front, q, back, rfl, hstep⟩ := ih hlast
      exact ⟨front, q, back ++ [p], by rw [List.append_assoc, List.cons_append], hstep⟩
    · exact ⟨periods, p, [], rfl, hlast, h⟩

theorem track_terminal (hstate : state = .active ∨ state = .failed) : track dep i periods state = state := by
  induction periods with
  | nil => rfl
  | cons p rest ih =>
    obtain rfl | rfl := hstate <;> exact ih

/-- A deployment is started once. -/
theorem track_lockedIn_ne_started : track dep i periods .lockedIn ≠ .started := by
  induction periods with
  | nil => simp [track]
  | cons p rest ih =>
    change track dep i rest (nextState dep p (p.count i) .lockedIn) ≠ .started
    by_cases hheight : p.periodHeight ≥ dep.minActivationHeight
    · rw [nextState, if_pos hheight, track_terminal (.inl rfl)]
      simp
    · rw [nextState, if_neg hheight]
      exact ih

end Tracks

section Safety

variable (deployments : List Bip9Deployment) (n : ℕ) (periods : List Period) {i : ℕ} {state : ThresholdState}
  {dep : Bip9Deployment} {states : VersionBitsState} {back front : List Period}

/-- A call in a run: the periods before it and the tracker they lead to. -/
structure CallAt (front : List Period) (p : Period) (before : VersionBitsState) : Prop where
  splits : ∃ back, periods = front ++ p :: back
  ran : run deployments front (newState n) = some before

/-- Only the counts of one deployment. -/
def Period.only (i : ℕ) (p : Period) : Period := { p with signalCounts := [p.count i] }

/-- What activation promises of the tracker that some periods lead to. -/
structure Safe (states : VersionBitsState) : Prop where
  lockedIn : ∀ (i : ℕ) (dep : Bip9Deployment), deployments[i]? = some dep →
    states[i]? = some ThresholdState.lockedIn →
    ∃ front p before, CallAt deployments n periods front p before ∧
      before[i]? = some .started ∧ p.mtp < dep.timeout ∧ Signalled dep p (p.count i)
  active : ∀ (i : ℕ) (dep : Bip9Deployment), deployments[i]? = some dep →
    states[i]? = some ThresholdState.active →
    ∃ front p before, CallAt deployments n periods front p before ∧
      before[i]? = some ThresholdState.lockedIn ∧ p.periodHeight ≥ dep.minActivationHeight
  terminal : ∀ (i : ℕ) (more : List Period) (after : VersionBitsState),
    run deployments more states = some after → ∀ state : ThresholdState,
      state = ThresholdState.active ∨ state = ThresholdState.failed →
      states[i]? = some state → after[i]? = some state
  independent : ∀ (i : ℕ) (dep : Bip9Deployment), deployments[i]? = some dep → i < n →
    ∃ alone, run [dep] (periods.map (Period.only i)) (newState 1) = some alone ∧
      alone[0]? = states[i]?

variable {deployments n periods}

theorem newState_getElem? (h : (newState n)[i]? = some state) : i < n ∧ state = .defined := by
  obtain ⟨hlt, hget⟩ := List.getElem?_eq_some_iff.mp h
  rw [newState, List.length_replicate] at hlt
  exact ⟨hlt, by simpa [newState] using hget.symm⟩

theorem run_newState_iff (hdep : deployments[i]? = some dep) (h : run deployments periods (newState n) = some states) :
    states[i]? = some state ↔ i < n ∧ track dep i periods .defined = state := by
  rw [run_getElem? hdep h]
  constructor
  · intro hmap
    obtain ⟨start, hstart, htrack⟩ := Option.map_eq_some_iff.mp hmap
    obtain ⟨hlt, rfl⟩ := newState_getElem? hstart
    exact ⟨hlt, htrack⟩
  · rintro ⟨hlt, rfl⟩
    have hstart : (newState n)[i]? = some .defined := by
      rw [newState, List.getElem?_replicate, if_pos hlt]
    rw [hstart]
    rfl

theorem callAt_of_run {p : Period} (h : run deployments periods (newState n) = some states)
    (hsplit : periods = front ++ p :: back) : ∃ before, CallAt deployments n periods front p before := by
  rw [hsplit, run_append] at h
  cases hfront : run deployments front (newState n) with
  | none => simp [hfront] at h
  | some before => exact ⟨before, ⟨back, hsplit⟩, hfront⟩

theorem run_reached (hdep : deployments[i]? = some dep) (h : run deployments periods (newState n) = some states)
    (hget : states[i]? = some state) (hne : state ≠ .defined) :
    ∃ front p before other, CallAt deployments n periods front p before ∧
      before[i]? = some other ∧ other ≠ state ∧ nextState dep p (p.count i) other = state := by
  obtain ⟨hlt, htrack⟩ := (run_newState_iff hdep h).mp hget
  obtain ⟨front, p, back, hsplit, hother, hstep⟩ := track_reached htrack hne
  obtain ⟨before, hcall⟩ := callAt_of_run h hsplit
  exact ⟨front, p, before, _, hcall, (run_newState_iff hdep hcall.ran).mpr ⟨hlt, rfl⟩, hother, hstep⟩

/-- No call locks a deployment in with too few signals. -/
def Punctual (deployments : List Bip9Deployment) (n : ℕ) (periods : List Period) : Prop :=
  ∀ front p before, CallAt deployments n periods front p before →
    ∀ (i : ℕ) (dep : Bip9Deployment), deployments[i]? = some dep →
      before[i]? = some ThresholdState.started → p.mtp < dep.timeout →
      ¬ Premature dep p (p.count i)

theorem run_lockedIn (hpunctual : Punctual deployments n periods)
    (h : run deployments periods (newState n) = some states) (hdep : deployments[i]? = some dep)
    (hget : states[i]? = some .lockedIn) : ∃ front p before, CallAt deployments n periods front p before ∧
      before[i]? = some .started ∧ p.mtp < dep.timeout ∧ Signalled dep p (p.count i) := by
  obtain ⟨front, p, before, other, hcall, hbefore, hother, hstep⟩ :=
    run_reached hdep h hget (by simp)
  obtain ⟨rfl, htime, hcount⟩ := nextState_eq_lockedIn hstep hother
  refine ⟨front, p, before, hcall, hbefore, htime, ?_⟩
  by_contra hfew
  exact hpunctual front p before hcall i dep hdep hbefore htime ⟨hcount, hfew⟩

theorem run_active (h : run deployments periods (newState n) = some states) (hdep : deployments[i]? = some dep)
    (hget : states[i]? = some .active) : ∃ front p before, CallAt deployments n periods front p before ∧
      before[i]? = some .lockedIn ∧ p.periodHeight ≥ dep.minActivationHeight := by
  obtain ⟨front, p, before, other, hcall, hbefore, hother, hstep⟩ :=
    run_reached hdep h hget (by simp)
  obtain ⟨rfl, hheight⟩ := nextState_eq_active hstep hother
  exact ⟨front, p, before, hcall, hbefore, hheight⟩

theorem run_terminal {after : VersionBitsState} (h : run deployments periods states = some after)
    (hstate : state = .active ∨ state = .failed) (hget : states[i]? = some state) : after[i]? = some state := by
  induction periods generalizing states with
  | nil =>
    cases h
    exact hget
  | cons p rest ih =>
    rw [run] at h
    cases hstep : transition deployments p states with
    | none => simp [hstep] at h
    | some next =>
      rw [hstep] at h
      refine ih h ?_
      have hnext := transitionFrom_getElem? hstep i
      cases hdep : (if 0 ≤ i then deployments[i - 0]? else none) with
      | none =>
        rw [hdep] at hnext
        exact hnext.trans hget
      | some dep =>
        rw [hdep] at hnext
        simp only [hget, Option.map_some] at hnext
        obtain rfl | rfl := hstate <;> exact hnext

theorem run_alone : run [dep] (periods.map (Period.only i)) (newState 1) =
      some [track dep i periods .defined] := by
  have hstep : ∀ state, run [dep] (periods.map (Period.only i)) [state] =
      some [track dep i periods state] := by
    induction periods with
    | nil => exact fun state => rfl
    | cons p rest ih => exact fun state => ih (nextState dep p (p.count i) state)
  exact hstep .defined

theorem safe_of_punctual (hpunctual : Punctual deployments n periods)
    (h : run deployments periods (newState n) = some states) : Safe deployments n periods states where
  lockedIn _ _ hdep hget := run_lockedIn hpunctual h hdep hget
  active _ _ hdep hget := run_active h hdep hget
  terminal _ _ _ hmore _ hstate hget := run_terminal hmore hstate hget
  independent _ _ hdep hlt :=
    ⟨_, run_alone, ((run_newState_iff hdep h).mpr ⟨hlt, rfl⟩).symm⟩

theorem Punctual.mono (h : Punctual deployments n (front ++ back)) : Punctual deployments n front := by
  intro front' p before hcall
  obtain ⟨⟨back', hsplit⟩, hran⟩ := hcall
  refine h front' p before ⟨⟨back' ++ back, ?_⟩, hran⟩
  rw [hsplit, List.append_assoc, List.cons_append]

/-- Activation is safe in every tracker a run goes through exactly when every call is
punctual. -/
theorem activation_safe_iff (deployments : List Bip9Deployment) (n : ℕ) (periods : List Period) :
    (∀ front back states, periods = front ++ back →
      run deployments front (newState n) = some states → Safe deployments n front states) ↔
    Punctual deployments n periods := by
  constructor
  · intro h front p before hcall i dep hdep hstarted htime hpremature
    obtain ⟨⟨back, hsplit⟩, hran⟩ := hcall
    obtain ⟨hlt, htrack⟩ := (run_newState_iff hdep hran).mp hstarted
    -- the call itself succeeds, since the tracker was moved before
    have hne : front ≠ [] := by
      rintro rfl
      simp [track] at htrack
    have hfit : deployments.length ≤ before.length := by
      obtain ⟨hlen, hfit⟩ := run_length hran
      have := hfit (List.ne_nil_of_mem (List.mem_of_getElem? hdep)) hne
      omega
    obtain ⟨after, hafter⟩ : ∃ after, transition deployments p before = some after :=
      transitionFrom_isSome (by omega)
    have hrun : run deployments (front ++ [p]) (newState n) = some after := by
      rw [run_append, hran, Option.bind_some, run, hafter]
      rfl
    have hlocks : track dep i (front ++ [p]) .defined = .lockedIn := by
      rw [track_concat, htrack, nextState, if_neg (UInt64.not_le.mpr htime), if_pos hpremature.1]
    have hsafe := h (front ++ [p]) back after (by rw [hsplit, List.append_assoc]; rfl) hrun
    obtain ⟨front', q, before', ⟨⟨back', hsplit'⟩, hran'⟩, hstarted', htime', hsignalled⟩ :=
      hsafe.lockedIn i dep hdep ((run_newState_iff hdep hrun).mpr ⟨hlt, hlocks⟩)
    obtain rfl | ⟨middle, r, rfl⟩ := List.eq_nil_or_concat' back'
    · obtain ⟨rfl, hq⟩ := List.append_inj' hsplit' rfl
      obtain rfl : p = q := (List.cons.inj hq).1
      exact hpremature.2 hsignalled
    · -- an earlier call locked the deployment in, which is then not started any more
      rw [← List.cons_append, ← List.append_assoc] at hsplit'
      obtain ⟨rfl, -⟩ := List.append_inj' hsplit' rfl
      obtain ⟨-, htrack'⟩ := (run_newState_iff hdep hran').mp hstarted'
      rw [track_append, htrack'] at htrack
      change track dep i middle (nextState dep q (q.count i) .started) = .started at htrack
      rw [nextState, if_neg (UInt64.not_le.mpr htime'), if_pos (threshold_le_of_signalled hsignalled)]
        at htrack
      exact track_lockedIn_ne_started htrack
  · rintro h front back states rfl hrun
    exact safe_of_punctual h.mono hrun

def sampleDeployment : Bip9Deployment :=
  { name := "test"
    bit := 1
    startTime := 1000000
    timeout := 2000000
    minActivationHeight := 0
    thresholdPct := defaultThresholdPct }

/-- 1915 of 2016 blocks are less than 95 percent. -/
theorem early_lock_in : ¬ ∀ (deployments : List Bip9Deployment) (n : ℕ) (periods : List Period)
      (states : VersionBitsState), periods.Pairwise (fun p q => p.periodHeight ≤ q.periodHeight) →
      run deployments periods (newState n) = some states → Safe deployments n periods states := by
  intro h
  have hsafe := h [sampleDeployment] 1 [⟨0, 2016, 1500000, [0]⟩, ⟨2016, 2016, 1500000, [1915]⟩]
    [.lockedIn] (by decide) (by decide)
  obtain ⟨front, p, before, ⟨⟨back, hsplit⟩, hran⟩, hstarted, -, hsignalled⟩ :=
    hsafe.lockedIn 0 sampleDeployment rfl rfl
  match front, hsplit with
  | [], hsplit =>
    cases hran
    exact absurd hstarted (by decide)
  | [q], hsplit =>
    obtain ⟨-, rfl, -⟩ : _ ∧ p = ⟨2016, 2016, 1500000, [1915]⟩ ∧ _ := by simpa using hsplit.symm
    exact absurd hsignalled (by decide)
  | q :: q' :: rest, hsplit => simp at hsplit

end Safety

section Signals

/-- `VERSION_BITS_TOP_MASK`. -/
def versionBitsTopMask : BitVec 32 := 0x20000000#32

/-- `MAX_VERSION_BITS_BIT`. -/
def maxVersionBitsBit : ℕ := 28

def signals (bit : ℕ) (version : BitVec 32) : Bool :=
  version &&& versionBitsTopMask == versionBitsTopMask && version &&& (1#32 <<< bit) != 0#32

/-- `count_signals`; the cast is harmless below 2^32 blocks. -/
def countSignals (versions : List (BitVec 32)) (bit : ℕ) : UInt32 :=
  UInt32.ofNat (versions.countP (signals bit))

def versionWithBits (bits : List ℕ) : BitVec 32 :=
  bits.foldl (fun v b => if b ≤ maxVersionBitsBit then v ||| (1#32 <<< b) else v) versionBitsTopMask

theorem versionBitsTopMask_getLsbD (j : ℕ) (hj : j < 32) : versionBitsTopMask.getLsbD j = decide (j = 29) := by
  revert j
  decide

theorem versionWithBits_getLsbD (bits : List ℕ) (j : ℕ) (hj : j < 32) :
    (versionWithBits bits).getLsbD j = (decide (j = 29) || decide (j ∈ bits ∧ j ≤ maxVersionBitsBit)) := by
  have hstep : ∀ v : BitVec 32, (bits.foldl (fun v b =>
      if b ≤ maxVersionBitsBit then v ||| (1#32 <<< b) else v) v).getLsbD j =
      (v.getLsbD j || decide (j ∈ bits ∧ j ≤ maxVersionBitsBit)) := by
    induction bits with
    | nil => simp
    | cons b bits ih =>
      intro v
      rw [List.foldl_cons, ih]
      by_cases hb : b ≤ maxVersionBitsBit
      · rw [if_pos hb, BitVec.getLsbD_or]
        by_cases hjb : j = b
        · subst hjb
          simp [hj, hb]
        · have hzero : (1#32 <<< b).getLsbD j = false := by
            simp [BitVec.getLsbD_shiftLeft]
            omega
          simp [hzero, hjb]
      · rw [if_neg hb]
        have hjb : ¬ (j = b ∧ j ≤ maxVersionBitsBit) := by
          rintro ⟨rfl, hle⟩
          exact hb hle
        by_cases hjb' : j = b
        · subst hjb'
          simp [hb]
        · simp [hjb']
  rw [versionWithBits, hstep, versionBitsTopMask_getLsbD j hj]

theorem and_shift_ne_zero_iff (v : BitVec 32) {bit : ℕ} (hbit : bit < 32) :
    v &&& (1#32 <<< bit) ≠ 0#32 ↔ v.getLsbD bit = true := by
  constructor
  · intro h
    by_contra hclear
    refine h (BitVec.eq_of_getLsbD_eq fun j hj => ?_)
    by_cases hjb : j = bit
    · subst hjb
      simp [hclear]
    · have hzero : (1#32 <<< bit).getLsbD j = false := by
        simp [BitVec.getLsbD_shiftLeft]
        omega
      simp [hzero]
  · intro h hzero
    have hget := congrArg (fun w : BitVec 32 => w.getLsbD bit) hzero
    rw [BitVec.getLsbD_and, h] at hget
    simp [hbit] at hget

theorem signals_versionWithBits {bits : List ℕ} {bit : ℕ} (hbit : bit ≤ maxVersionBitsBit) :
    signals bit (versionWithBits bits) = decide (bit ∈ bits) := by
  have hlt : bit < 29 := Nat.lt_succ_of_le hbit
  have htop : versionWithBits bits &&& versionBitsTopMask = versionBitsTopMask := by
    refine BitVec.eq_of_getLsbD_eq fun j hj => ?_
    rw [BitVec.getLsbD_and, versionWithBits_getLsbD bits j hj, versionBitsTopMask_getLsbD j hj]
    by_cases h : j = 29 <;> simp [h]
  have hget := versionWithBits_getLsbD bits bit (by omega)
  have hshift := and_shift_ne_zero_iff (versionWithBits bits) (show bit < 32 by omega)
  rw [signals, htop, beq_self_eq_true, Bool.true_and, Bool.eq_iff_iff, bne_iff_ne, hshift, hget]
  simp [hbit]
  omega

/-- Versions that are built for some bits each count for a bit as often as it is among them. -/
theorem countSignals_built {bit : ℕ} (hbit : bit ≤ maxVersionBitsBit) (blocks : List (List ℕ)) :
    countSignals (blocks.map versionWithBits) bit = UInt32.ofNat (blocks.countP fun bits => bit ∈ bits) := by
  rw [countSignals, List.countP_map]
  congr 2
  funext bits
  exact signals_versionWithBits hbit

theorem third_bit_counted : countSignals ([[3, 5], [4], [3]].map versionWithBits) 3 = 2 :=
  countSignals_built (by decide) _

end Signals

end KuberCoin.VersionBits
