import KuberCoin.StepCases
import KuberCoin.PayToScriptHash

/-!
Induction over runs: a property of states that every single step keeps holds after
every run and before each of its calls, nested calls included.
The first use is that a failing call leaves the chain alone when `RunsThrough` holds.
-/
namespace KuberCoin.Runs

open Bytes Maps Transactions Blocks UtxoSets Params Difficulty Validator Storage NodeStates
  NodeStates.NodeState AddBlock Frames BlockEffects StepCases InputScripts PayToScriptHash

variable {cx : Context}

section Induction

variable {env : Env} {P : NodeState → Prop} {R : NodeState → NodeState → Prop} {good Q : Call → Prop}
  {add : NodeState → Block → Option Outcome} {s s' : NodeState} {calls : List Call}

/-- Adding blocks with `add` keeps `P` and moves along `R` as long as all calls are good, and
`Q` holds of the calls. -/
def Keeps (P : NodeState → Prop) (R : NodeState → NodeState → Prop) (good Q : Call → Prop)
    (add : NodeState → Block → Option Outcome) : Prop :=
  ∀ s b o, add s b = some o → P s → (∀ c ∈ o.calls, good c) →
    P o.state ∧ R s o.state ∧ ∀ c ∈ o.calls, Q c ∧ R c.before o.state

/-- The same for blocks with a property `W` that the waiting orphans have, too. -/
def KeepsFor (W : Block → Prop) (P : NodeState → Prop) (R : NodeState → NodeState → Prop)
    (good Q : Call → Prop) (add : NodeState → Block → Option Outcome) : Prop :=
  ∀ s b o, add s b = some o → P s → W b → (∀ c ∈ o.calls, good c) →
    P o.state ∧ R s o.state ∧ ∀ c ∈ o.calls, Q c ∧ R c.before o.state

/-- The result of a call is that of its step. -/
def Stepped (cx : Context) (c : Call) : Prop := c.result = (addBlockStep cx c.env c.before c.block).1

variable {W : Block → Prop} (hrefl : ∀ s, R s s)
  (htrans : ∀ s₁ s₂ s₃, R s₁ s₂ → R s₂ s₃ → R s₁ s₃)
include hrefl htrans

theorem reconnectChildren_keepsFor (hadd : KeepsFor W P R good Q add)
    (htake : ∀ s parent child b, P s → s.orphanBlocks.lookup child = some b →
      W b ∧ P (takeOrphan s parent child) ∧ R s (takeOrphan s parent child)) {parent : Bytes32}
    {children accepted : List Bytes32} (h : reconnectChildren add parent s children = some (s', accepted, calls))
    (hP : P s) (hgood : ∀ c ∈ calls, good c) : P s' ∧ R s s' ∧ ∀ c ∈ calls, Q c ∧ R c.before s' := by
  induction children generalizing s accepted calls with
  | nil =>
    simp only [reconnectChildren, Option.some.injEq, Prod.mk.injEq] at h
    obtain ⟨rfl, -, rfl⟩ := h
    exact ⟨hP, hrefl _, by simp⟩
  | cons child rest ih =>
    unfold reconnectChildren at h
    split at h
    next => exact ih h hP hgood
    next b hb =>
      split at h
      next => simp at h
      next o ho =>
        split at h
        next => simp at h
        next s₁ accepted₁ calls₁ hrest =>
          simp only [Option.some.injEq, Prod.mk.injEq] at h
          obtain ⟨rfl, -, rfl⟩ := h
          have hgood₁ : ∀ c ∈ o.calls, good c := fun c hc => hgood c (List.mem_append_left _ hc)
          have hgood₂ : ∀ c ∈ calls₁, good c := fun c hc => hgood c (List.mem_append_right _ hc)
          obtain ⟨hW, hPtake, hRtake⟩ := htake s parent child b hP hb
          obtain ⟨hP₁, hR₁, hbefore₁⟩ := hadd _ b o ho hPtake hW hgood₁
          obtain ⟨hP₂, hR₂, hbefore₂⟩ := ih hrest hP₁ hgood₂
          refine ⟨hP₂, htrans _ _ _ hRtake (htrans _ _ _ hR₁ hR₂), ?_⟩
          intro c hc
          rcases List.mem_append.mp hc with hc | hc
          · exact ⟨(hbefore₁ c hc).1, htrans _ _ _ (hbefore₁ c hc).2 hR₂⟩
          · exact hbefore₂ c hc

theorem processOrphans_keepsFor (hadd : KeepsFor W P R good Q add)
    (htake : ∀ s parent child b, P s → s.orphanBlocks.lookup child = some b →
      W b ∧ P (takeOrphan s parent child) ∧ R s (takeOrphan s parent child)) {fuel : ℕ} {queue : List Bytes32}
    (h : processOrphans env add fuel s queue = some (s', calls)) (hP : P s) (hgood : ∀ c ∈ calls, good c) :
    P s' ∧ R s s' ∧ ∀ c ∈ calls, Q c ∧ R c.before s' := by
  induction fuel generalizing s queue calls with
  | zero =>
    cases queue with
    | nil =>
      simp only [processOrphans, Option.some.injEq, Prod.mk.injEq] at h
      obtain ⟨rfl, rfl⟩ := h
      exact ⟨hP, hrefl _, by simp⟩
    | cons parent queue => simp [processOrphans] at h
  | succ fuel ih =>
    cases queue with
    | nil =>
      simp only [processOrphans, Option.some.injEq, Prod.mk.injEq] at h
      obtain ⟨rfl, rfl⟩ := h
      exact ⟨hP, hrefl _, by simp⟩
    | cons parent queue =>
      unfold processOrphans at h
      simp only at h
      split at h
      next => simp at h
      next s₁ accepted calls₁ hchildren =>
        split at h
        next => simp at h
        next s₂ calls₂ hrest =>
          simp only [Option.some.injEq, Prod.mk.injEq] at h
          obtain ⟨rfl, rfl⟩ := h
          have hgood₁ : ∀ c ∈ calls₁, good c := fun c hc => hgood c (List.mem_append_left _ hc)
          have hgood₂ : ∀ c ∈ calls₂, good c := fun c hc => hgood c (List.mem_append_right _ hc)
          obtain ⟨hP₁, hR₁, hbefore₁⟩ :=
            reconnectChildren_keepsFor hrefl htrans hadd htake hchildren hP hgood₁
          obtain ⟨hP₂, hR₂, hbefore₂⟩ := ih hrest hP₁ hgood₂
          refine ⟨hP₂, htrans _ _ _ hR₁ hR₂, ?_⟩
          intro c hc
          rcases List.mem_append.mp hc with hc | hc
          · exact ⟨(hbefore₁ c hc).1, htrans _ _ _ (hbefore₁ c hc).2 hR₂⟩
          · exact hbefore₂ c hc

/-- What every step keeps, a whole call keeps; where every step moves along `R`, it does. All
the blocks it adds have the property of the first one and of the orphans. -/
theorem addBlockFuel_keepsFor (hstep : ∀ s b, P s → W b → good ⟨env, s, b, (addBlockStep cx env s b).1⟩ →
      P (addBlockStep cx env s b).2 ∧ R s (addBlockStep cx env s b).2)
    (htake : ∀ s parent child b, P s → s.orphanBlocks.lookup child = some b →
      W b ∧ P (takeOrphan s parent child) ∧ R s (takeOrphan s parent child)) (hprune : ∀ s tipHeight, P s →
      P (maybePrune cx env s tipHeight) ∧ R s (maybePrune cx env s tipHeight)) (fuel : ℕ) :
    KeepsFor W P R good (fun c => W c.block ∧ P c.before ∧ Stepped cx c)
      (addBlockFuel cx env fuel) := by
  induction fuel with
  | zero =>
    intro s b o h
    simp [addBlockFuel] at h
  | succ fuel ih =>
    intro s b o h hP hW hgood
    unfold addBlockFuel at h
    split at h
    next s₁ hs₁ =>
      split at h
      next => simp at h
      next s₂ calls horphans =>
        simp only [Option.some.injEq] at h
        subst h
        have hfirst := hgood _ (List.mem_cons_self ..)
        obtain ⟨hP₁, hR₁⟩ : P s₁ ∧ R s s₁ := by
          have := hstep s b hP hW (by rw [hs₁]; exact hfirst)
          rwa [hs₁] at this
        obtain ⟨hP₂, hR₂, hbefore⟩ := processOrphans_keepsFor hrefl htrans ih htake horphans hP₁
          (fun c hc => hgood c (List.mem_cons_of_mem _ hc))
        obtain ⟨hP₃, hR₃⟩ := hprune s₂ b.header.height hP₂
        have hR : R s (maybePrune cx env s₂ b.header.height) :=
          htrans _ _ _ hR₁ (htrans _ _ _ hR₂ hR₃)
        refine ⟨hP₃, hR, ?_⟩
        intro c hc
        rcases List.mem_cons.mp hc with rfl | hc
        · refine ⟨⟨hW, hP, ?_⟩, hR⟩
          change _ = (addBlockStep cx env s b).1
          rw [hs₁]
        · exact ⟨(hbefore c hc).1, htrans _ _ _ (hbefore c hc).2 hR₃⟩
    next r s₁ hne hs₁ =>
      simp only [Option.some.injEq] at h
      subst h
      have hfirst := hgood _ (List.mem_singleton.mpr rfl)
      obtain ⟨hP₁, hR₁⟩ : P s₁ ∧ R s s₁ := by
        have := hstep s b hP hW (by rw [hs₁]; exact hfirst)
        rwa [hs₁] at this
      refine ⟨hP₁, hR₁, ?_⟩
      intro c hc
      rw [List.mem_singleton.mp hc]
      refine ⟨⟨hW, hP, ?_⟩, hR₁⟩
      change _ = (addBlockStep cx env s b).1
      rw [hs₁]

theorem addBlockFuel_keeps (hstep : ∀ s b, P s → good ⟨env, s, b, (addBlockStep cx env s b).1⟩ →
      P (addBlockStep cx env s b).2 ∧ R s (addBlockStep cx env s b).2)
    (htake : ∀ s parent child b, P s → s.orphanBlocks.lookup child = some b →
      P (takeOrphan s parent child) ∧ R s (takeOrphan s parent child)) (hprune : ∀ s tipHeight, P s →
      P (maybePrune cx env s tipHeight) ∧ R s (maybePrune cx env s tipHeight)) (fuel : ℕ) :
    Keeps P R good (fun c => P c.before ∧ Stepped cx c) (addBlockFuel cx env fuel) := by
  intro s b o h hP hgood
  have hkeeps : KeepsFor (fun _ => True) P R good
      (fun c => True ∧ P c.before ∧ Stepped cx c) (addBlockFuel cx env fuel) :=
    addBlockFuel_keepsFor hrefl htrans (fun s b hs _ => hstep s b hs)
      (fun s parent child b hs hb => ⟨trivial, htake s parent child b hs hb⟩) hprune fuel
  obtain ⟨hend, hmoved, hcalls⟩ := hkeeps s b o h hP trivial hgood
  exact ⟨hend, hmoved, fun c hc => ⟨(hcalls c hc).1.2, (hcalls c hc).2⟩⟩

omit hrefl htrans in
theorem run_keeps (hfresh : ∀ env s, NodeState.new cx env Disk.empty = .ok s → P s)
    (hstep : ∀ env s b, P s → good ⟨env, s, b, (addBlockStep cx env s b).1⟩ →
      P (addBlockStep cx env s b).2) (htake : ∀ s parent child b, P s → s.orphanBlocks.lookup child = some b →
      P (takeOrphan s parent child)) (hprune : ∀ env s tipHeight, P s → P (maybePrune cx env s tipHeight))
    (hrun : Run cx s calls) (hgood : ∀ c ∈ calls, good c) : P s ∧ ∀ c ∈ calls, P c.before ∧ Stepped cx c := by
  induction hrun with
  | fresh h => exact ⟨hfresh _ _ h, by simp⟩
  | @add s calls env b fuel o hrun h ih =>
    obtain ⟨hP, hbefore⟩ := ih (fun c hc => hgood c (List.mem_append_left _ hc))
    have hkeeps : Keeps P (fun _ _ => True) good (fun c => P c.before ∧ Stepped cx c)
        (addBlockFuel cx env fuel) :=
      addBlockFuel_keeps (fun _ => trivial) (fun _ _ _ _ _ => trivial)
        (fun s b h hg => ⟨hstep env s b h hg, trivial⟩)
        (fun s parent child b h hb => ⟨htake s parent child b h hb, trivial⟩)
        (fun s tipHeight h => ⟨hprune env s tipHeight h, trivial⟩) fuel
    obtain ⟨hP', -, hbefore'⟩ := hkeeps s b o h hP (fun c hc => hgood c (List.mem_append_right _ hc))
    refine ⟨hP', ?_⟩
    intro c hc
    rcases List.mem_append.mp hc with hc | hc
    · exact hbefore c hc
    · exact (hbefore' c hc).1

omit hrefl htrans in
theorem run_stepped (hrun : Run cx s calls) : ∀ c ∈ calls, Stepped cx c := by
  intro c hc
  have hkeeps : (fun _ => True) s ∧ ∀ c ∈ calls, (fun _ => True) c.before ∧ Stepped cx c :=
    run_keeps (fun _ _ _ => trivial) (fun _ _ _ _ _ => trivial) (fun _ _ _ _ _ _ => trivial)
      (fun _ _ _ _ => trivial) hrun (fun c _ => (trivial : (fun _ : Call => True) c))
  exact (hkeeps.2 c hc).2

end Induction

section Execution

variable {fuel : ℕ} {s : NodeState} {blocks : List Block}

/-- Add blocks one after the other in one environment. -/
def addAll (cx : Context) (env : Env) (fuel : ℕ) : NodeState → List Block → Option NodeState
  | s, [] => some s
  | s, b :: rest =>
      match addBlockFuel cx env fuel s b with
      | none => none
      | some o => addAll cx env fuel o.state rest

/-- The node that was opened on an empty store and given the blocks. -/
def nodeAfter (cx : Context) (env : Env) (fuel : ℕ) (blocks : List Block) : Option NodeState :=
  match NodeState.new cx env Disk.empty with
  | .error _ => none
  | .ok s => addAll cx env fuel s blocks

theorem run_addAll {env : Env} {s' : NodeState} {calls : List Call} (hrun : Run cx s calls)
    (h : addAll cx env fuel s blocks = some s') : ∃ calls', Run cx s' calls' := by
  induction blocks generalizing s calls with
  | nil =>
    simp only [addAll, Option.some.injEq] at h
    exact ⟨calls, h ▸ hrun⟩
  | cons b rest ih =>
    unfold addAll at h
    split at h
    next => simp at h
    next o ho => exact ih (Run.add hrun ho) h

theorem run_nodeAfter {env : Env} (h : nodeAfter cx env fuel blocks = some s) : ∃ calls, Run cx s calls := by
  unfold nodeAfter at h
  split at h
  next => simp at h
  next s₀ hs₀ => exact run_addAll (Run.fresh hs₀) h

theorem nodeAfter_nil {env : Env} (h : nodeAfter cx env fuel [] = some s) :
    NodeState.new cx env Disk.empty = .ok s := by
  unfold nodeAfter addAll at h
  split at h
  next => simp at h
  next s₀ hs₀ => rw [hs₀, Option.some.inj h]

/-- A regtest node with the default cache and no pruning. -/
def regtest : Context :=
  { sha256 := Sha256.sha256
    checks := noSignatures
    network := .regtest
    maxBlockCache := 512
    pruneDepth := none }

/-- A regtest node that runs scripts; no key of it ever verifies. -/
def scriptNode : Context := { regtest with checks := scriptChecks keylessEngine }

/-- A regtest block one second after its parent. -/
def childOf (parent : Block) (txs : List Transaction) (nonce : UInt64) : Block :=
  { header :=
      { version := headerVersion
        prevHash := parent.hash Sha256.sha256
        merkleRoot := calculateMerkleRoot Sha256.sha256 txs
        timestamp := parent.header.timestamp + 1
        bits := 0x207fffff
        nonce := nonce
        height := parent.header.height + 1 }
    transactions := txs }

/-- An environment a day after the regtest genesis block. -/
def today : Env := Env.reliable 1706900000

/-- Two blocks on genesis, and a block without transactions on the second. -/
def firstBranch : Block := childOf regtest.genesis [emptyCoinbase] 1

def secondBranch : Block := childOf regtest.genesis [emptyCoinbase, freeTransaction] 2

def hollowBlock : Block := childOf secondBranch [] 2

def paidCoinbase : Transaction :=
  { emptyCoinbase with outputs := [payTo openScript 2500000000, payTo openScript 2500000000] }

/-- A transaction without inputs, whose output of value zero can be spent at once. -/
def giftTransaction : Transaction := { freeTransaction with outputs := [payTo openScript 0] }

def giftSpend : Transaction := spendOpen ⟨giftTransaction.txid Sha256.runSha256, 0⟩ 0

/-- A block on genesis with outputs, and one on it that spends the last of them. -/
def paidBranch : Block := childOf scriptNode.genesis [paidCoinbase, giftTransaction] 2

def spendingTip : Block := childOf paidBranch [committingCoinbase [giftSpend], giftSpend] 3

/-!
The same node and the same blocks with `Sha256.runSha256`, for the runs that the kernel evaluates.
-/

def runRegtest : Context := { regtest with sha256 := Sha256.runSha256 }

theorem runRegtest_eq : runRegtest = regtest := by
  rw [runRegtest, Sha256.runSha256_eq]
  rfl

def runChildOf (parent : Block) (txs : List Transaction) (nonce : UInt64) : Block :=
  { header :=
      { version := headerVersion
        prevHash := parent.hash Sha256.runSha256
        merkleRoot := calculateMerkleRoot Sha256.runSha256 txs
        timestamp := parent.header.timestamp + 1
        bits := 0x207fffff
        nonce := nonce
        height := parent.header.height + 1 }
    transactions := txs }

theorem runChildOf_eq (parent : Block) (txs : List Transaction) (nonce : UInt64) :
    runChildOf parent txs nonce = childOf parent txs nonce := by
  rw [runChildOf, Sha256.runSha256_eq]
  rfl

def runFirstBranch : Block := runChildOf runRegtest.genesis [emptyCoinbase] 1

theorem runFirstBranch_eq : runFirstBranch = firstBranch := by
  rw [runFirstBranch, runChildOf_eq, runRegtest_eq, firstBranch]

def runSecondBranch : Block := runChildOf runRegtest.genesis [emptyCoinbase, freeTransaction] 2

theorem runSecondBranch_eq : runSecondBranch = secondBranch := by
  rw [runSecondBranch, runChildOf_eq, runRegtest_eq, secondBranch]

def runScriptNode : Context := { runRegtest with checks := scriptChecks keylessEngine }

theorem runScriptNode_eq : runScriptNode = scriptNode := by
  rw [runScriptNode, runRegtest_eq]
  rfl

def runPaidBranch : Block := runChildOf runScriptNode.genesis [paidCoinbase, giftTransaction] 2

theorem runPaidBranch_eq : runPaidBranch = paidBranch := by
  rw [runPaidBranch, runChildOf_eq, runScriptNode_eq, paidBranch]

def runSpendingTip : Block := runChildOf runPaidBranch [committingCoinbase [giftSpend], giftSpend] 3

theorem runSpendingTip_eq : runSpendingTip = spendingTip := by
  rw [runSpendingTip, runChildOf_eq, runPaidBranch_eq, spendingTip]

def runHollowBlock : Block := runChildOf runSecondBranch [] 2

theorem runHollowBlock_eq : runHollowBlock = hollowBlock := by
  rw [runHollowBlock, runChildOf_eq, runSecondBranch_eq, hollowBlock]

/-!
The same calls with the work of regtest blocks as a constant. Weighing two chains evaluates
the work of each of their blocks, and the long division takes most of such an evaluation.
-/

/-- The work of a block with the regtest target. -/
def regtestWork : Bytes32 := setByte Bytes32.zero 31 2

def runWork (bits : UInt32) : Bytes32 :=
  if bits = 0x207fffff then regtestWork else workFromCompact bits

theorem runWork_eq (bits : UInt32) : runWork bits = workFromCompact bits := by
  unfold runWork
  split
  next h =>
    rw [h]
    decide +kernel
  next => rfl

variable (cx : Context) (env : Env)

def runAddBlockStep (s : NodeState) (b : Block) : Except AddBlockError Exit × NodeState :=
  match earlyChecks cx env b with
  | .error e => (.error e, s)
  | .ok () =>
      if ¬ parentKnown s b.header.prevHash then
        (.ok .orphaned, addOrphan env s (b.hash cx.sha256) b)
      else
        match headerChecks cx s b with
        | .error e => (.error e, s)
        | .ok () =>
            let work := addWork ((s.blockWork.lookup b.header.prevHash).getD Bytes32.zero)
              (runWork b.header.bits)
            if b.header.prevHash = s.tip then connectTip cx env s b work
            else connectSide cx env s b work

theorem runAddBlockStep_eq (s : NodeState) (b : Block) : runAddBlockStep cx env s b = addBlockStep cx env s b := by
  have hwork : runWork = workFromCompact := funext runWork_eq
  unfold runAddBlockStep
  rewrite [hwork]
  rfl

def runAddBlockFuel : ℕ → NodeState → Block → Option Outcome
  | 0, _, _ => none
  | fuel + 1, s, b =>
      match runAddBlockStep cx env s b with
      | (.ok .connected, s₁) =>
          match processOrphans env (runAddBlockFuel fuel) fuel s₁ [b.hash cx.sha256] with
          | none => none
          | some (s₂, calls) =>
              some ⟨.ok .connected, maybePrune cx env s₂ b.header.height,
                ⟨env, s, b, .ok .connected⟩ :: calls⟩
      | (r, s₁) => some ⟨r, s₁, [⟨env, s, b, r⟩]⟩

theorem runAddBlockFuel_eq (fuel : ℕ) : runAddBlockFuel cx env fuel = addBlockFuel cx env fuel := by
  induction fuel with
  | zero => rfl
  | succ fuel ih =>
    have hstep : runAddBlockStep cx env = addBlockStep cx env :=
      funext fun s => funext (runAddBlockStep_eq cx env s)
    funext s b
    unfold runAddBlockFuel
    rewrite [hstep, ih]
    rfl

/-- The state with the works of a node that was just opened. -/
def withGenesisWork (s : NodeState) : NodeState :=
  { s with
    chainwork := runWork cx.genesis.header.bits
    blockWork := (∅ : Map Bytes32 Bytes32).insert cx.genesisHash (runWork cx.genesis.header.bits) }

theorem new_works (h : NodeState.new cx env Disk.empty = .ok s) : s.chainwork = cx.genesisWork ∧
      s.blockWork = (∅ : Map Bytes32 Bytes32).insert cx.genesisHash cx.genesisWork := by
  change initGenesis cx env (blank Disk.empty) = .ok s at h
  unfold initGenesis at h
  split at h
  next => simp at h
  next u happly =>
    split at h
    next => simp at h
    next s₃ hpersist =>
      split at h
      next => simp at h
      next s₄ hw =>
        obtain rfl := write_eq_some hw
        obtain rfl := Except.ok.inj h
        have hframe := (persistState_eq_some hpersist).1
        have hindex := @rebuildIndexes_frame cx env
          { s₃ with store := s₃.store.perform [.putBlock cx.genesisHash cx.genesis] }
        exact ⟨hindex.chainwork.trans hframe.chainwork, hindex.blockWork.trans hframe.blockWork⟩

theorem withGenesisWork_new (h : NodeState.new cx env Disk.empty = .ok s) : withGenesisWork cx s = s := by
  obtain ⟨hwork, hworks⟩ := new_works cx env h
  unfold withGenesisWork
  rw [runWork_eq, ← Context.genesisWork, ← hworks, ← hwork]

def runAddAll (fuel : ℕ) : NodeState → List Block → Option NodeState
  | s, [] => some s
  | s, b :: rest =>
      match runAddBlockFuel cx env fuel s b with
      | none => none
      | some o => runAddAll fuel o.state rest

theorem runAddAll_eq (fuel : ℕ) (s : NodeState) (blocks : List Block) :
    runAddAll cx env fuel s blocks = addAll cx env fuel s blocks := by
  induction blocks generalizing s with
  | nil => rfl
  | cons b rest ih =>
    unfold runAddAll addAll
    rewrite [runAddBlockFuel_eq]
    cases addBlockFuel cx env fuel s b with
    | none => rfl
    | some o => exact ih o.state

def runNodeAfter (fuel : ℕ) (blocks : List Block) : Option NodeState :=
  match NodeState.new cx env Disk.empty with
  | .error _ => none
  | .ok s => runAddAll cx env fuel (withGenesisWork cx s) blocks

theorem runNodeAfter_eq (fuel : ℕ) (blocks : List Block) :
    runNodeAfter cx env fuel blocks = nodeAfter cx env fuel blocks := by
  unfold runNodeAfter nodeAfter
  split
  next => rfl
  next s hnew => rw [withGenesisWork_new cx env hnew, runAddAll_eq]

end Execution

section FailedCalls

variable {env : Env} {fuel : ℕ} {s : NodeState} {b : Block} {o : Outcome} {e : AddBlockError}

/-- The best chain and what is derived from it are the same. -/
structure SameChain (s s' : NodeState) : Prop where
  tip : s'.tip = s.tip
  height : s'.height = s.height
  chainwork : s'.chainwork = s.chainwork
  utxoSet : s'.utxoSet = s.utxoSet
  heightMap : s'.heightMap = s.heightMap
  txIndex : s'.txIndex = s.txIndex
  scriptPubkeyIndex : s'.scriptPubkeyIndex = s.scriptPubkeyIndex
  chainHeightIndex : s'.chainHeightIndex = s.chainHeightIndex

theorem SameChain.refl (s : NodeState) : SameChain s s := ⟨rfl, rfl, rfl, rfl, rfl, rfl, rfl, rfl⟩

theorem addBlockFuel_result (h : addBlockFuel cx env fuel s b = some o) : o.result = (addBlockStep cx env s b).1 := by
  cases fuel with
  | zero => simp [addBlockFuel] at h
  | succ fuel =>
    unfold addBlockFuel at h
    split at h
    next s₁ hs₁ =>
      split at h
      next => simp at h
      next s₂ calls horphans =>
        simp only [Option.some.injEq] at h
        subst h
        rw [hs₁]
    next r s₁ hne hs₁ =>
      simp only [Option.some.injEq] at h
      subst h
      rw [hs₁]

theorem mem_calls (h : addBlockFuel cx env fuel s b = some o) : ⟨env, s, b, o.result⟩ ∈ o.calls := by
  cases fuel with
  | zero => simp [addBlockFuel] at h
  | succ fuel =>
    unfold addBlockFuel at h
    split at h
    next s₁ hs₁ =>
      split at h
      next => simp at h
      next s₂ calls horphans =>
        simp only [Option.some.injEq] at h
        subst h
        exact List.mem_cons_self ..
    next r s₁ hne hs₁ =>
      simp only [Option.some.injEq] at h
      subst h
      exact List.mem_cons_self ..

theorem calls_eq_singleton (h : addBlockFuel cx env fuel s b = some o) (hone : o.calls.length = 1) :
    o.calls = [⟨env, s, b, o.result⟩] := by
  obtain ⟨c, hc⟩ := List.length_eq_one_iff.mp hone
  have hmem := mem_calls h
  rw [hc, List.mem_singleton] at hmem
  rw [hc, hmem]

theorem addBlockFuel_error (h : addBlockFuel cx env fuel s b = some o) (he : o.result = .error e) :
    addBlockStep cx env s b = (.error e, o.state) := by
  cases fuel with
  | zero => simp [addBlockFuel] at h
  | succ fuel =>
    unfold addBlockFuel at h
    split at h
    next s₁ hs₁ =>
      split at h
      next => simp at h
      next s₂ calls horphans =>
        simp only [Option.some.injEq] at h
        subst h
        simp at he
    next r s₁ hne hs₁ =>
      simp only [Option.some.injEq] at h
      subst h
      simp only at he
      rw [hs₁, he]

theorem failed_step_keeps_chain {s' : NodeState} (h : addBlockStep cx env s b = (.error e, s'))
    (hthrough : RunsThrough cx env s b) : SameChain s s' := by
  have hcases := @addBlockStep_cases cx env s b
  rw [h] at hcases
  cases hcases with
  | rejected _ _ => exact SameChain.refl _
  | stored hadm htip hside _ =>
    exact ⟨hside.tip, hside.height, hside.chainwork, hside.utxoSet, hside.heightMap, hside.txIndex,
      hside.scriptPubkeyIndex, hside.chainHeightIndex⟩
  | broken _ _ hnot _ => exact absurd hthrough hnot

/-- In every run, a failing call that runs through leaves the chain as it was, be it a call
from outside or one for an orphan. -/
theorem failed_call_keeps_chain {s : NodeState} {calls : List Call} (hrun : Run cx s calls) {c : Call} (hc : c ∈ calls)
    {e : AddBlockError} (he : c.result = .error e) (hthrough : RunsThrough cx c.env c.before c.block) {fuel : ℕ}
    {o : Outcome} (h : addBlockFuel cx c.env fuel c.before c.block = some o) :
    o.result = .error e ∧ SameChain c.before o.state := by
  have hstep : (addBlockStep cx c.env c.before c.block).1 = .error e := by
    rw [← run_stepped hrun c hc, he]
  have hresult : o.result = .error e := by
    rw [addBlockFuel_result h, hstep]
  exact ⟨hresult, failed_step_keeps_chain (addBlockFuel_error h hresult) hthrough⟩

theorem firstBranch_call : ∃ s₀ o, NodeState.new regtest today Disk.empty = .ok s₀ ∧
      addBlockFuel regtest today 2 s₀ firstBranch = some o ∧
      o.calls = [⟨today, s₀, firstBranch, .ok .connected⟩] ∧ o.state.height = 1 ∧
      o.state.heightMap.lookup 1 = some (firstBranch.hash Sha256.sha256) := by
  have hevaluated : ((nodeAfter regtest today 1 []).any fun s =>
      (addBlockFuel regtest today 2 s firstBranch).any fun o =>
        decide (o.result = .ok .connected ∧ o.calls.length = 1 ∧ o.state.height = 1 ∧
          o.state.heightMap.lookup 1 = some (firstBranch.hash Sha256.sha256))) = true := by
    rw [← runRegtest_eq, ← runFirstBranch_eq, ← Sha256.runSha256_eq]
    decide +kernel
  obtain ⟨s, hs, hafter⟩ := Option.any_eq_true _ _ |>.mp hevaluated
  obtain ⟨o, ho, hstate⟩ := Option.any_eq_true _ _ |>.mp hafter
  obtain ⟨hresult, hone, hheight, hmap⟩ := of_decide_eq_true hstate
  have hcalls : o.calls = [⟨today, s, firstBranch, .ok .connected⟩] := by
    rw [calls_eq_singleton ho hone, hresult]
  exact ⟨s, o, nodeAfter_nil hs, ho, hcalls, hheight, hmap⟩

theorem exists_error {r : Except AddBlockError Exit} (h : r.isOk = false) : ∃ e, r = .error e := by
  cases r with
  | error e => exact ⟨e, rfl⟩
  | ok x => simp [Except.isOk, Except.toBool] at h

theorem exists_ok_of_any {ε : Type} {r : Except ε NodeState} {p : NodeState → Bool} (h : r.toOption.any p = true) :
    ∃ s, r = .ok s ∧ p s = true := by
  cases r with
  | ok s => exact ⟨s, rfl, h⟩
  | error e => cases h

theorem invalid_tip_keeps_chain :
    ∃ s calls c o e, Run regtest s calls ∧ c ∈ calls ∧ RunsThrough regtest c.env c.before c.block ∧
      addBlockFuel regtest c.env 1 c.before c.block = some o ∧ o.result = .error e ∧
      SameChain c.before o.state := by
  have hevaluated : ((nodeAfter regtest today 1 []).any fun s =>
      decide (s.tip = regtest.genesisHash) && !(validateTip regtest today s
        (childOf regtest.genesis [] 1)).isOk &&
        (addBlockFuel regtest today 1 s (childOf regtest.genesis [] 1)).any fun o =>
          !o.result.isOk) = true := by
    rw [← runChildOf_eq, ← runRegtest_eq]
    decide +kernel
  obtain ⟨s, hs, hafter⟩ := Option.any_eq_true _ _ |>.mp hevaluated
  rw [Bool.and_eq_true, Bool.and_eq_true, decide_eq_true_eq] at hafter
  obtain ⟨⟨htip, hinvalid⟩, hadd⟩ := hafter
  obtain ⟨o, ho, herror⟩ := Option.any_eq_true _ _ |>.mp hadd
  obtain ⟨e, he⟩ := exists_error (by simpa using herror)
  obtain ⟨calls, hrun⟩ := run_nodeAfter hs
  have hrun' := Run.add hrun ho
  have hmem := List.mem_append_right calls (mem_calls ho)
  have hthrough : RunsThrough regtest today s (childOf regtest.genesis [] 1) := by
    refine ⟨fun _ _ => rfl, ?_, ?_⟩
    · intro _ _ hvalid
      rw [hvalid] at hinvalid
      simp [Except.isOk, Except.toBool] at hinvalid
    · intro _ hne
      exact absurd htip.symm hne
  obtain ⟨hresult, hsame⟩ := failed_call_keeps_chain hrun' hmem he hthrough ho
  exact ⟨_, _, _, o, e, hrun', hmem, hthrough, ho, hresult, hsame⟩

/-- The third block makes the second chain the heavier one and fails validation once the
second block is connected. -/
theorem half_way_switch_changes_chain :
    ∃ s calls o e, Run regtest s calls ∧ addBlockFuel regtest today 2 s hollowBlock = some o ∧
      o.result = .error e ∧ ¬ SameChain s o.state := by
  have hevaluated : ((nodeAfter regtest today 2 [firstBranch, secondBranch]).any fun s =>
      (addBlockFuel regtest today 2 s hollowBlock).any fun o =>
        !o.result.isOk && decide (o.state.heightMap.lookup 1 ≠ s.heightMap.lookup 1)) = true := by
    rw [← runRegtest_eq, ← runFirstBranch_eq, ← runSecondBranch_eq, ← runHollowBlock_eq,
      ← runNodeAfter_eq, ← runAddBlockFuel_eq]
    decide +kernel
  obtain ⟨s, hs, hafter⟩ := Option.any_eq_true _ _ |>.mp hevaluated
  obtain ⟨o, ho, hchanged⟩ := Option.any_eq_true _ _ |>.mp hafter
  obtain ⟨calls, hrun⟩ := run_nodeAfter hs
  rw [Bool.and_eq_true, decide_eq_true_eq] at hchanged
  obtain ⟨e, he⟩ := exists_error (by simpa using hchanged.1)
  refine ⟨s, calls, o, e, hrun, ho, he, ?_⟩
  intro hsame
  exact hchanged.2 (by rw [hsame.heightMap])

end FailedCalls

section Switch

variable {env : Env} {s s' : NodeState} {blocks : List Block} {calls : List Call}

/-- Add blocks one after the other and list the calls; no call may have another one inside it. -/
def addEach (add : NodeState → Block → Option Outcome) (env : Env) :
    NodeState → List Block → Option (NodeState × List Call)
  | s, [] => some (s, [])
  | s, b :: rest =>
      (add s b).bind fun o =>
        if o.calls.length = 1 then
          (addEach add env o.state rest).map fun p => (p.1, ⟨env, s, b, o.result⟩ :: p.2)
        else none

theorem addEach_blocks {add : NodeState → Block → Option Outcome} (h : addEach add env s blocks = some (s', calls)) :
    calls.map Call.block = blocks ∧ ∀ c ∈ calls, c.env = env := by
  induction blocks generalizing s s' calls with
  | nil =>
    simp only [addEach, Option.some.injEq, Prod.mk.injEq] at h
    rw [← h.2]
    exact ⟨rfl, by simp⟩
  | cons b rest ih =>
    simp only [addEach, Option.bind_eq_some_iff] at h
    obtain ⟨o, -, h⟩ := h
    split at h
    next =>
      obtain ⟨⟨s₁, calls₁⟩, hrest, heq⟩ := Option.map_eq_some_iff.mp h
      obtain ⟨-, rfl⟩ := Prod.mk.inj heq
      obtain ⟨hblocks, henv⟩ := ih hrest
      refine ⟨by rw [List.map_cons, hblocks], ?_⟩
      rw [List.forall_mem_cons]
      exact ⟨rfl, henv⟩
    next => cases h

theorem run_addEach {fuel : ℕ} {calls' : List Call} (hrun : Run cx s calls)
    (h : addEach (addBlockFuel cx env fuel) env s blocks = some (s', calls')) : Run cx s' (calls ++ calls') := by
  induction blocks generalizing s calls calls' with
  | nil =>
    simp only [addEach, Option.some.injEq, Prod.mk.injEq] at h
    rw [← h.1, ← h.2, List.append_nil]
    exact hrun
  | cons b rest ih =>
    simp only [addEach, Option.bind_eq_some_iff] at h
    obtain ⟨o, ho, h⟩ := h
    split at h
    next hone =>
      obtain ⟨⟨s₁, calls₁⟩, hrest, heq⟩ := Option.map_eq_some_iff.mp h
      obtain ⟨rfl, rfl⟩ := Prod.mk.inj heq
      have hadded := ih (Run.add hrun ho) hrest
      rwa [calls_eq_singleton ho hone, List.append_assoc] at hadded
    next => cases h

/-- The first branch twice, then a branch that is only stored, and the call that switches to it. -/
def switchAfter (add : NodeState → Block → Option Outcome) (first second tip : Block) (s₀ : NodeState) :
    Option (NodeState × List Call × Outcome) :=
  (addEach add today s₀ [first, first, second]).bind fun p =>
    (add p.1 tip).map fun o => (p.1, p.2, o)

def switched : Option (NodeState × List Call × Outcome) :=
  (nodeAfter scriptNode today 1 []).bind
    (switchAfter (addBlockFuel scriptNode today 3) firstBranch paidBranch spendingTip)

def runSwitched : Option (NodeState × List Call × Outcome) :=
  (runNodeAfter runScriptNode today 1 []).bind
    (switchAfter (runAddBlockFuel runScriptNode today 3) runFirstBranch runPaidBranch runSpendingTip)

theorem runSwitched_eq : runSwitched = switched := by
  rw [runSwitched, runNodeAfter_eq, runAddBlockFuel_eq, runScriptNode_eq, runFirstBranch_eq,
    runPaidBranch_eq, runSpendingTip_eq, switched]

/-- A call that succeeds on a low chain and repeats no header of it with another body. -/
structure Calm (c : Call) : Prop where
  env : c.env = today
  result : ∃ x, c.result = .ok x
  low : c.before.height ≤ 1
  body : ∀ i, c.before.heightMap.lookup i = some (c.block.hash Sha256.sha256) →
    c.before.getBlock (c.block.hash Sha256.sha256) = some c.block

def isCalm (sha256 : Sha256) (c : Call) : Bool :=
  c.result.isOk && decide (c.before.height ≤ 1) &&
    (decide (c.before.getBlock (c.block.hash sha256) = some c.block) ||
      decide (∀ e ∈ c.before.heightMap.entries, e.2 ≠ c.block.hash sha256))

theorem calm_of_isCalm {c : Call} (henv : c.env = today) (h : isCalm Sha256.sha256 c = true) : Calm c := by
  simp only [isCalm, Bool.and_eq_true, Bool.or_eq_true, decide_eq_true_eq] at h
  obtain ⟨⟨hok, hlow⟩, hbody⟩ := h
  refine ⟨henv, ?_, hlow, ?_⟩
  · cases hresult : c.result with
    | ok x => exact ⟨x, rfl⟩
    | error e => simp [hresult, Except.isOk, Except.toBool] at hok
  · intro i hi
    rcases hbody with hfound | hnone
    · exact hfound
    · exact absurd rfl (hnone _ (Finmap.lookup_eq_some_iff.mp hi))

/-- The calls of the switch: the fourth one makes the second branch the chain. -/
structure Switched (s : NodeState) (calls : List Call) (o : Outcome) : Prop where
  run : Run scriptNode s calls
  added : addBlockFuel scriptNode today 3 s spendingTip = some o
  alone : o.calls = [⟨today, s, spendingTip, o.result⟩]
  blocks : (calls ++ o.calls).map Call.block = [firstBranch, firstBranch, paidBranch, spendingTip]
  calm : ∀ c ∈ calls ++ o.calls, Calm c
  replaced : s.heightMap.lookup 1 = some (firstBranch.hash Sha256.sha256)
  height : o.state.height = 2
  heightMap : o.state.heightMap.lookup 1 = some (paidBranch.hash Sha256.sha256)
  tip : o.state.tip = spendingTip.hash Sha256.sha256
  stored : o.state.getBlock (spendingTip.hash Sha256.sha256) = some spendingTip

theorem Switched.fullRun {o : Outcome} (h : Switched s calls o) :
    Run scriptNode o.state (calls ++ o.calls) := Run.add h.run h.added

theorem exists_switched : ∃ s calls o, switched = some (s, calls, o) ∧ Switched s calls o := by
  have hevaluated : (switched.any fun p =>
      decide (p.2.2.calls.length = 1 ∧ p.2.2.state.height = 2 ∧
        p.1.heightMap.lookup 1 = some (firstBranch.hash Sha256.sha256) ∧
        p.2.2.state.heightMap.lookup 1 = some (paidBranch.hash Sha256.sha256) ∧
        p.2.2.state.tip = spendingTip.hash Sha256.sha256 ∧
        p.2.2.state.getBlock (spendingTip.hash Sha256.sha256) = some spendingTip) &&
      (p.2.1 ++ p.2.2.calls).all (isCalm Sha256.sha256)) = true := by
    rw [← runSwitched_eq, ← runFirstBranch_eq, ← runSpendingTip_eq, ← runPaidBranch_eq, ← Sha256.runSha256_eq]
    decide +kernel
  obtain ⟨⟨s, calls, o⟩, hswitched, hstate⟩ := Option.any_eq_true _ _ |>.mp hevaluated
  rw [Bool.and_eq_true, decide_eq_true_eq, List.all_eq_true] at hstate
  obtain ⟨⟨hone, hheight, hreplaced, hmap, htip, hstored⟩, hcalm⟩ := hstate
  have hparts := hswitched
  simp only [switched, switchAfter, Option.bind_eq_some_iff, Option.map_eq_some_iff] at hparts
  obtain ⟨s₀, hs₀, ⟨s₁, calls₁⟩, heach, o₁, ho, heq⟩ := hparts
  simp only [Prod.mk.injEq] at heq
  obtain ⟨rfl, rfl, rfl⟩ := heq
  obtain ⟨hblocks, henv⟩ := addEach_blocks heach
  have hcalls := calls_eq_singleton ho hone
  refine ⟨_, _, _, hswitched, run_addEach (Run.fresh (nodeAfter_nil hs₀)) heach, ho, hcalls, ?_, ?_,
    hreplaced, hheight, hmap, htip, hstored⟩
  · rw [hcalls, List.map_append, hblocks]
    rfl
  · intro c hc
    apply calm_of_isCalm _ (hcalm c hc)
    rcases List.mem_append.mp hc with hc | hc
    · exact henv c hc
    · rw [hcalls] at hc
      rw [List.mem_singleton.mp hc]

end Switch

end KuberCoin.Runs
