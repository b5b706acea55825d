import KuberCoin.BlockEffects
import KuberCoin.InputScripts
import KuberCoin.SharedPrograms
import KuberCoin.Sha256
import Mathlib.Data.Finset.Card

/-!
The signature cache (crate `consensus`, `sig_cache`) and validation with it.
A block's transactions are validated in parallel, so a validation is a program over
the shared cache whose operations are the lookups and the insertions, in whatever
order the threads take the lock. An entry stands for a script that has verified, but
its key is made of the txid and the position of the input, and neither covers the
witness that most scripts read. Results are those of validation without a cache as
long as inputs with one key verify together.
-/
namespace KuberCoin.SigCaches

open Bytes Maps Transactions Blocks UtxoSets Validator BlockEffects InputScripts SharedPrograms

/-- The number of entries at which the cache is cleared. -/
def maxEntries : ℕ := 1000000

/-- The keys in the set behind the lock. -/
abbrev SigCache := Finset Bytes32

namespace SigCache

def new : SigCache := ∅

def cacheKey (sha256 : Sha256) (txid : Bytes32) (inputIndex : ℕ) : Bytes32 :=
  sha256 (txid.bytes ++ leBytes 8 inputIndex)

def contains (cache : SigCache) (key : Bytes32) : Bool := decide (key ∈ cache)

def insert (cache : SigCache) (key : Bytes32) : SigCache :=
  Insert.insert key (if maxEntries ≤ cache.card then ∅ else cache)

theorem eq_or_mem_of_mem_insert {cache : SigCache} {key k : Bytes32} (h : k ∈ cache.insert key) :
    k = key ∨ k ∈ cache := by
  rw [insert, Finset.mem_insert] at h
  refine h.imp_right fun hk => ?_
  split at hk
  · exact absurd hk (Finset.notMem_empty k)
  · exact hk

end SigCache

inductive CacheOp where
  | contains (key : Bytes32)
  | insert (key : Bytes32)

/-- The cache as threads share it: each lookup and each insertion holds the lock. -/
def cacheObject : SharedObject SigCache where
  Op := CacheOp
  Answer
    | .contains _ => Bool
    | .insert _ => Unit
  perform
    | .contains key, cache => (cache.contains key, cache)
    | .insert key, cache => ((), cache.insert key)

/-- Code that uses the cache and may fail. -/
abbrev Cached := ExceptT ValidationError (Program cacheObject)

def lookup (key : Bytes32) : Cached Bool := performs (O := cacheObject) (.contains key)

def store (key : Bytes32) : Cached Unit := performs (O := cacheObject) (.insert key)

section Validation

variable (eng : Engine)

/-- The key of an input of a transaction. -/
def inputKey (tx : Transaction) (index : ℕ) : Bytes32 :=
  SigCache.cacheKey eng.sha256 (tx.txid eng.sha256) index

def verifyInputSignature (tx : Transaction) (index : ℕ) (utxo : UTXO) (amounts : List UInt64)
    (scripts : List (List UInt8)) : Cached Unit := do
  let hit ← lookup (inputKey eng tx index)
  if hit then pure ()
  else do
    check (verifyOutput eng tx index utxo.output amounts scripts)
    store (inputKey eng tx index)

/-- The loop over the inputs, as `Validator.validateInputs` with the cache. -/
def validateInputs (tx : Transaction) (u : UtxoSet) (height : ℕ) (mtp : Option (ℕ → UInt64))
    (amounts : List UInt64) (scripts : List (List UInt8)) :
    ℕ → UInt64 → List TxInput → Cached UInt64
  | _, sum, [] => pure sum
  | index, sum, i :: rest => do
      let utxo ← check (getUtxo u i.prevOutput)
      check (require (¬ (utxo.isCoinbase ∧ height < utxo.height + 100)) .immatureCoinbase)
      check (require (sequenceLockMet mtp height tx i utxo) .sequenceLockNotMet)
      verifyInputSignature eng tx index utxo amounts scripts
      match Transaction.checkedAdd sum utxo.output.value with
      | some sum' => validateInputs tx u height mtp amounts scripts (index + 1) sum' rest
      | none => check (.error .insufficientFunds)

def validateTransactionCached (clock : UInt64) (tx : Transaction) (u : UtxoSet) (height : ℕ)
    (mtp : Option (ℕ → UInt64)) : Cached Unit :=
  if tx.isCoinbase then pure () else do
    check (require (¬ (tx.version = 0 ∨ tx.version > 2))
      (.invalidScript s!"Non-standard transaction version: {tx.version} (expected 1 or 2)"))
    check (forEach (fun o => require (o.1.value ≤ Params.maxSupply)
        (.invalidScript s!"Output {o.2} value {o.1.value} exceeds MAX_SUPPLY {Params.maxSupply}"))
      tx.outputs.zipIdx)
    check (require (lockTimeMet clock mtp height tx) .lockedUntilFuture)
    let spent ← check (prevouts u tx.inputs)
    let inputSum ← validateInputs eng tx u height mtp (spent.map fun c => c.output.value)
      (spent.map fun c => c.output.scriptPubkey) 0 0 tx.inputs
    match tx.totalOutputValue with
    | none => check (.error .insufficientFunds)
    | some outputSum => check (require (outputSum ≤ inputSum) .insufficientFunds)

/-- The checks of a block before its transactions are validated. -/
def checksBefore (b : Block) (u : UtxoSet) (mtp : Option (ℕ → UInt64)) :
    Except ValidationError Unit :=
  match b.transactions with
  | [] => .error .invalidCoinbasePosition
  | coinbase :: txs => do
      require (b.weight ≤ maxBlockWeight) .blockTooHeavy
      require (timestampAfterMtp b mtp) .timestampBeforeMTP
      require (¬ (b.header.version < 0 ∨ b.header.version &&& versionBitsTopMask = 0))
        .badBlockVersion
      require (b.transactions.all (outputsFresh eng.sha256 u)) .duplicateTxid
      require coinbase.isCoinbase .invalidCoinbasePosition
      require (txs.all fun tx => !tx.isCoinbase) .multipleCoinbase
      require ((txs.map fun tx => txSigopCost tx u).sum ≤ maxBlockSigopsCost) .tooManySigops

/-- The checks of a block after its transactions have validated. -/
def checksAfter (b : Block) (u : UtxoSet) : Except ValidationError Unit :=
  match b.transactions with
  | [] => .error .invalidCoinbasePosition
  | coinbase :: txs => do
      require ((scriptChecks eng).verifyBatch (batchItems u txs)) (.invalidSignature 0)
      require (spentOutpoints txs).Nodup .doubleSpend
      require ((coinbase.outputs.map TxOutput.value).sum ≤ maxCoinbaseValue u b.header.height txs)
        .excessiveCoinbaseReward
      require (b.verifyMerkleRoot eng.sha256) .invalidMerkleRoot
      checkWitnessCommitment eng.sha256 coinbase txs

end Validation

/-- A call of one of the two functions, with its arguments and the time it reads. -/
inductive Call where
  | transaction (tx : Transaction) (u : UtxoSet) (height : ℕ) (mtp : Option (ℕ → UInt64))
      (clock : UInt64)
  | block (b : Block) (u : UtxoSet) (mtp : Option (ℕ → UInt64)) (clock : UInt64)

namespace Call

def utxoSet : Call → UtxoSet
  | transaction _ u _ _ _ => u
  | block _ u _ _ => u

/-- The transactions a call validates. -/
def transactions : Call → List Transaction
  | transaction tx _ _ _ _ => [tx]
  | block b _ _ _ => b.transactions.tail

/-- The result with no cache. -/
def uncached (eng : Engine) : Call → Except ValidationError Unit
  | transaction tx u height mtp clock =>
      Validator.validateTransactionCached (scriptChecks eng) clock tx u height mtp
  | block b u mtp clock => validateBlockCached eng.sha256 (scriptChecks eng) clock b u mtp

/-- A call with a shared cache: what it returns and what it leaves in the cache. The transactions
of a block are validated in parallel, and the first error in their order is the result. -/
inductive Returns (eng : Engine) :
    Call → SigCache → Except ValidationError Unit → SigCache → Prop
  | transaction {tx u height mtp clock cache result cache'}
      (run : Completes cache [(validateTransactionCached eng clock tx u height mtp).run]
        [result] cache') :
      Returns eng (.transaction tx u height mtp clock) cache result cache'
  | blockRefused {b u mtp clock cache e} (refused : checksBefore eng b u mtp = .error e) :
      Returns eng (.block b u mtp clock) cache (.error e) cache
  | block {b u mtp clock cache results cache'} (passed : checksBefore eng b u mtp = .ok ())
      (run : Completes cache
        (b.transactions.tail.map fun tx =>
          (validateTransactionCached eng clock tx u b.header.height mtp).run)
        results cache') :
      Returns eng (.block b u mtp clock) cache
        (do forEach (fun result => result) results; checksAfter eng b u) cache'

end Call

/-- Calls one after another, with their results, from one cache to another. -/
inductive History (eng : Engine) :
    SigCache → List Call → List (Except ValidationError Unit) → SigCache → Prop
  | nil (cache : SigCache) : History eng cache [] [] cache
  | cons {call calls result results cache cache' cache''}
      (first : call.Returns eng cache result cache')
      (rest : History eng cache' calls results cache'') :
      History eng cache (call :: calls) (result :: results) cache''

section Soundness

variable (eng : Engine) (outputs : OutPoint → TxOutput) {cache cache' : SigCache} {index : ℕ}

/-- Every outpoint in the set denotes its output. -/
def Denotes (u : UtxoSet) : Prop := ∀ o utxo, u.lookup o = some utxo → utxo.output = outputs o

/-- The script of an input verifies with no cache. -/
def Verifies (tx : Transaction) (index : ℕ) : Prop :=
  ∃ i, tx.inputs[index]? = some i ∧
    verifyOutput eng tx index (outputs i.prevOutput)
      (tx.inputs.map fun j => (outputs j.prevOutput).value)
      (tx.inputs.map fun j => (outputs j.prevOutput).scriptPubkey) = .ok ()

/-- Where two inputs have one cache key and the script of one verifies, so does the other's. -/
def VerifyTogether (txs : List Transaction) : Prop :=
  ∀ tx ∈ txs, ∀ tx' ∈ txs, ∀ index index', index' < tx'.inputs.length →
    inputKey eng tx index = inputKey eng tx' index' →
    Verifies eng outputs tx index → Verifies eng outputs tx' index'

/-- Every entry of the cache stands for an input that verifies. -/
def Genuine (txs : List Transaction) (cache : SigCache) : Prop :=
  ∀ key ∈ cache, ∃ tx ∈ txs, ∃ index,
    inputKey eng tx index = key ∧ Verifies eng outputs tx index

variable {eng outputs} {txs : List Transaction} {tx : Transaction} {u : UtxoSet}

/-- Inputs verify together where no key is shared: no two of the transactions differ in their
witnesses only, and no digests collide. -/
theorem verifyTogether_of_distinct_keys
    (h : ∀ tx ∈ txs, ∀ tx' ∈ txs, ∀ index < tx.inputs.length, ∀ index' < tx'.inputs.length,
      inputKey eng tx index = inputKey eng tx' index' → tx = tx' ∧ index = index') :
    VerifyTogether eng outputs txs := by
  intro tx htx tx' htx' index index' hlt hkey hv
  have hindex : index < tx.inputs.length := by
    obtain ⟨i, hi, -⟩ := hv
    exact (List.getElem?_eq_some_iff.mp hi).1
  obtain ⟨rfl, rfl⟩ := h tx htx tx' htx' index hindex index' hlt hkey
  exact hv

theorem genuine_new : Genuine eng outputs txs SigCache.new :=
  fun key hkey => absurd hkey (Finset.notMem_empty key)

theorem Genuine.insert (h : Genuine eng outputs txs cache) (hmem : tx ∈ txs) (hv : Verifies eng outputs tx index) :
    Genuine eng outputs txs (cache.insert (inputKey eng tx index)) := by
  intro key hkey
  rcases SigCache.eq_or_mem_of_mem_insert hkey with rfl | hold
  · exact ⟨tx, hmem, index, rfl, hv⟩
  · exact h key hold

theorem prevouts_outputs (hu : Denotes outputs u) {inputs : List TxInput} {spent : List UTXO}
    (h : prevouts u inputs = .ok spent) : spent.map UTXO.output = inputs.map fun i => outputs i.prevOutput := by
  induction inputs generalizing spent with
  | nil =>
    have hnil : spent = [] := by simpa [prevouts] using h.symm
    subst hnil
    rfl
  | cons i rest ih =>
    rw [prevouts, bind_eq_ok_iff] at h
    obtain ⟨utxo, hutxo, h⟩ := h
    rw [bind_eq_ok_iff] at h
    obtain ⟨utxos, hrest, h⟩ := h
    have hspent : utxo :: utxos = spent := Except.ok.inj h
    have hlook : u.lookup i.prevOutput = some utxo := getUtxo_eq_ok_iff.mp hutxo
    rw [← hspent, List.map_cons, List.map_cons, ih hrest, hu _ _ hlook]

theorem verifyInputSignature_yields (htogether : VerifyTogether eng outputs txs) (hmem : tx ∈ txs) {i : TxInput}
    (hi : tx.inputs[index]? = some i) {utxo : UTXO} (hutxo : utxo.output = outputs i.prevOutput) :
    Yields (Genuine eng outputs txs)
      (verifyOutput eng tx index utxo.output (tx.inputs.map fun j => (outputs j.prevOutput).value)
        (tx.inputs.map fun j => (outputs j.prevOutput).scriptPubkey))
      (verifyInputSignature eng tx index utxo
        (tx.inputs.map fun j => (outputs j.prevOutput).value)
        (tx.inputs.map fun j => (outputs j.prevOutput).scriptPubkey)).run := by
  set amounts := tx.inputs.map fun j => (outputs j.prevOutput).value with hamounts
  set scripts := tx.inputs.map fun j => (outputs j.prevOutput).scriptPubkey with hscripts
  have hverifies : Verifies eng outputs tx index ↔
      verifyOutput eng tx index utxo.output amounts scripts = .ok () := by
    rw [hutxo]
    constructor
    · rintro ⟨j, hj, h⟩
      have hij : i = j := Option.some.inj (hi.symm.trans hj)
      rwa [hij]
    · intro h
      exact ⟨i, hi, h⟩
  refine yields_performs_bind fun cache hcache => ⟨hcache, ?_⟩
  show Yields _ _ (ExceptT.run (if decide (inputKey eng tx index ∈ cache) = true then _ else _))
  by_cases hhit : inputKey eng tx index ∈ cache
  · rw [if_pos (decide_eq_true hhit)]
    obtain ⟨tx', hmem', index', hkey, hv⟩ := hcache _ hhit
    have hlt : index < tx.inputs.length := (List.getElem?_eq_some_iff.mp hi).1
    rw [hverifies.mp (htogether tx' hmem' tx hmem index' index hlt hkey hv)]
    rfl
  · rw [if_neg (by simpa using hhit)]
    cases hv : verifyOutput eng tx index utxo.output amounts scripts with
    | error e => rfl
    | ok _ =>
      intro cache' hcache'
      exact ⟨hcache'.insert hmem (hverifies.mpr hv), rfl⟩

theorem validateInputs_yields (htogether : VerifyTogether eng outputs txs) (hmem : tx ∈ txs) (hu : Denotes outputs u)
    (height : ℕ) (mtp : Option (ℕ → UInt64)) {rest : List TxInput} (hdrop : tx.inputs.drop index = rest)
    (sum : UInt64) : Yields (Genuine eng outputs txs)
      (Validator.validateInputs (scriptChecks eng) tx u height mtp
        (tx.inputs.map fun j => (outputs j.prevOutput).value)
        (tx.inputs.map fun j => (outputs j.prevOutput).scriptPubkey) index sum rest)
      (validateInputs eng tx u height mtp
        (tx.inputs.map fun j => (outputs j.prevOutput).value)
        (tx.inputs.map fun j => (outputs j.prevOutput).scriptPubkey) index sum rest).run := by
  induction rest generalizing index sum with
  | nil => rfl
  | cons i rest ih =>
    have hi : tx.inputs[index]? = some i := by
      rw [← List.head?_drop, hdrop, List.head?_cons]
    have hnext : tx.inputs.drop (index + 1) = rest := by
      rw [← List.tail_drop, hdrop, List.tail_cons]
    rw [Validator.validateInputs, validateInputs]
    refine yields_check_bind fun utxo hget => ?_
    refine yields_check_bind fun _ _ => ?_
    refine yields_check_bind fun _ _ => ?_
    have hlook : u.lookup i.prevOutput = some utxo := getUtxo_eq_ok_iff.mp hget
    refine yields_bind (verifyInputSignature_yields htogether hmem hi (hu _ _ hlook)) fun _ _ => ?_
    cases Transaction.checkedAdd sum utxo.output.value with
    | none => rfl
    | some sum' => exact ih hnext sum'

theorem validateTransactionCached_yields (htogether : VerifyTogether eng outputs txs) (hmem : tx ∈ txs)
    (hu : Denotes outputs u) (clock : UInt64) (height : ℕ) (mtp : Option (ℕ → UInt64)) :
    Yields (Genuine eng outputs txs)
      (Validator.validateTransactionCached (scriptChecks eng) clock tx u height mtp)
      (validateTransactionCached eng clock tx u height mtp).run := by
  rw [Validator.validateTransactionCached, validateTransactionCached]
  by_cases hcoinbase : tx.isCoinbase
  · rw [if_pos hcoinbase, if_pos hcoinbase]
    rfl
  · rw [if_neg hcoinbase, if_neg hcoinbase]
    refine yields_check_bind fun _ _ => ?_
    refine yields_check_bind fun _ _ => ?_
    refine yields_check_bind fun _ _ => ?_
    refine yields_check_bind fun spent hspent => ?_
    have houtputs := prevouts_outputs hu hspent
    have hamounts : (spent.map fun c => c.output.value) =
        tx.inputs.map fun j => (outputs j.prevOutput).value := by
      simpa [Function.comp_def] using congrArg (List.map TxOutput.value) houtputs
    have hscripts : (spent.map fun c => c.output.scriptPubkey) =
        tx.inputs.map fun j => (outputs j.prevOutput).scriptPubkey := by
      simpa [Function.comp_def] using congrArg (List.map TxOutput.scriptPubkey) houtputs
    rw [hamounts, hscripts]
    refine yields_bind (validateInputs_yields htogether hmem hu height mtp List.drop_zero 0)
      fun inputSum _ => ?_
    cases tx.totalOutputValue with
    | none => rfl
    | some outputSum => rfl

theorem forEach_results {α : Type} (f : α → Except ValidationError Unit) (l : List α) :
    forEach (fun result => result) (l.map f) = forEach f l := by
  induction l with
  | nil => rfl
  | cons a rest ih => rw [List.map_cons, forEach, forEach, ih]

theorem validateBlockCached_eq (clock : UInt64) (b : Block) (u : UtxoSet) (mtp : Option (ℕ → UInt64)) :
    validateBlockCached eng.sha256 (scriptChecks eng) clock b u mtp =
      (do
        checksBefore eng b u mtp
        forEach (fun tx => Validator.validateTransactionCached (scriptChecks eng) clock tx u
          b.header.height mtp) b.transactions.tail
        checksAfter eng b u) := by
  unfold validateBlockCached validateBlockFull checksBefore checksAfter
  cases b.transactions with
  | nil => rfl
  | cons coinbase txs => simp [bind_assoc]

theorem transactions_yield (htogether : VerifyTogether eng outputs txs) (hu : Denotes outputs u) (clock : UInt64)
    (height : ℕ) (mtp : Option (ℕ → UInt64)) {l : List Transaction} (hl : ∀ tx ∈ l, tx ∈ txs) :
    List.Forall₂ (Yields (Genuine eng outputs txs))
      (l.map fun tx => Validator.validateTransactionCached (scriptChecks eng) clock tx u height mtp)
      (l.map fun tx => (validateTransactionCached eng clock tx u height mtp).run) := by
  rw [List.forall₂_map_left_iff, List.forall₂_map_right_iff, List.forall₂_same]
  intro tx htx
  exact validateTransactionCached_yields htogether (hl tx htx) hu clock height mtp

theorem returns_uncached (htogether : VerifyTogether eng outputs txs) {call : Call} (hu : Denotes outputs call.utxoSet)
    (hcall : ∀ tx ∈ call.transactions, tx ∈ txs) {result : Except ValidationError Unit}
    (h : call.Returns eng cache result cache') (hcache : Genuine eng outputs txs cache) :
    result = call.uncached eng ∧ Genuine eng outputs txs cache' := by
  cases h with
  | @transaction tx u height mtp clock _ _ _ run =>
    obtain ⟨hresult, hcache'⟩ := completes_yields run hcache
      (transactions_yield htogether hu clock height mtp hcall)
    exact ⟨List.head_eq_of_cons_eq hresult, hcache'⟩
  | @blockRefused b u mtp clock _ e refused =>
    refine ⟨?_, hcache⟩
    rw [Call.uncached, validateBlockCached_eq, refused]
    rfl
  | @block b u mtp clock _ results _ passed run =>
    obtain ⟨hresults, hcache'⟩ := completes_yields run hcache
      (transactions_yield htogether hu clock b.header.height mtp hcall)
    refine ⟨?_, hcache'⟩
    rw [Call.uncached, validateBlockCached_eq, passed, hresults, forEach_results]
    rfl

theorem history_uncached (htogether : VerifyTogether eng outputs txs) {calls : List Call}
    (hu : ∀ call ∈ calls, Denotes outputs call.utxoSet) (hcalls : ∀ call ∈ calls, ∀ tx ∈ call.transactions, tx ∈ txs)
    {results : List (Except ValidationError Unit)} (h : History eng cache calls results cache')
    (hcache : Genuine eng outputs txs cache) : results = calls.map (Call.uncached eng) := by
  induction h with
  | nil => rfl
  | @cons call calls result results _ _ _ first rest ih =>
    rw [List.forall_mem_cons] at hu hcalls
    obtain ⟨hresult, hcache'⟩ := returns_uncached htogether hu.1 hcalls.1 first hcache
    rw [List.map_cons, hresult, ih hu.2 hcalls.2 hcache']

theorem returns_runAlone (eng : Engine) (tx : Transaction) (u : UtxoSet) (height : ℕ) (mtp : Option (ℕ → UInt64))
    (clock : UInt64) (cache : SigCache) : (Call.transaction tx u height mtp clock).Returns eng cache
      ((validateTransactionCached eng clock tx u height mtp).run.runAlone cache).1
      ((validateTransactionCached eng clock tx u height mtp).run.runAlone cache).2 :=
  Call.Returns.transaction
    (steps_runAlone (validateTransactionCached eng clock tx u height mtp).run cache [])

theorem exists_returns (eng : Engine) (call : Call) (cache : SigCache) :
    ∃ result cache', call.Returns eng cache result cache' := by
  cases call with
  | transaction tx u height mtp clock =>
    exact ⟨_, _, returns_runAlone eng tx u height mtp clock cache⟩
  | block b u mtp clock =>
    cases hbefore : checksBefore eng b u mtp with
    | error e => exact ⟨.error e, cache, Call.Returns.blockRefused hbefore⟩
    | ok _ =>
      obtain ⟨results, cache', hrun⟩ := exists_completes
        (b.transactions.tail.map fun tx =>
          (validateTransactionCached eng clock tx u b.header.height mtp).run) cache
      exact ⟨_, cache', Call.Returns.block hbefore hrun⟩

theorem exists_history (eng : Engine) (calls : List Call) (cache : SigCache) :
    ∃ results cache', History eng cache calls results cache' := by
  induction calls generalizing cache with
  | nil => exact ⟨[], cache, History.nil cache⟩
  | cons call calls ih =>
    obtain ⟨result, cache', hfirst⟩ := exists_returns eng call cache
    obtain ⟨results, cache'', hrest⟩ := ih cache'
    exact ⟨result :: results, cache'', History.cons hfirst hrest⟩

end Soundness

section RunAlone

variable {eng : Engine} {tx : Transaction} {index : ℕ} {utxo : UTXO} {amounts : List UInt64}
  {scripts : List (List UInt8)} {cache : SigCache}

theorem verifyInputSignature_of_mem (h : inputKey eng tx index ∈ cache) :
    (verifyInputSignature eng tx index utxo amounts scripts).run.runAlone cache =
      (.ok (), cache) := by
  rw [verifyInputSignature, ExceptT.run_bind, Program.runAlone_bind]
  show Program.runAlone
    (ExceptT.run (if decide (inputKey eng tx index ∈ cache) = true then _ else _)) _ = _
  rw [if_pos (decide_eq_true h)]
  rfl

theorem verifyInputSignature_of_notMem (h : inputKey eng tx index ∉ cache)
    (hv : verifyOutput eng tx index utxo.output amounts scripts = .ok ()) :
    (verifyInputSignature eng tx index utxo amounts scripts).run.runAlone cache =
      (.ok (), cache.insert (inputKey eng tx index)) := by
  rw [verifyInputSignature, ExceptT.run_bind, Program.runAlone_bind]
  show Program.runAlone
    (ExceptT.run (if decide (inputKey eng tx index ∈ cache) = true then _ else _)) _ = _
  rw [if_neg (by simpa using h), hv]
  rfl

end RunAlone

section SpendOfAScriptHash

/-- An interpreter of scripts of one opcode, `OP_1` to `OP_16`. -/
def smallInterpreter : Interpreter where
  State := List (List UInt8)
  new := []
  setSegwitContext stack _ _ := stack
  pushData stack item := item :: stack
  execute stack script _ _ :=
    match script with
    | [opcode] =>
        if 0x51 ≤ opcode ∧ opcode ≤ 0x60 then .ok ([opcode - 0x50] :: stack)
        else .error "Invalid opcode"
    | _ => .error "Invalid opcode"
  popTop
    | [] => .error "Stack underflow"
    | item :: stack => .ok (item, stack)
  stackLen := List.length
  stackTopTrue stack := (stack.headD []).any fun byte => byte != 0

def smallEngine : Engine where
  sha256 := Sha256.sha256
  ripemd160 _ := []
  interpreter := smallInterpreter
  publicKey _ := .error "Invalid public key"
  fromDer _ := false
  verifyEcdsa _ _ _ := false
  schnorrFromBytes _ := false
  verifySchnorr _ _ _ := false
  tapscript _ _ _ _ _ index := .error (.invalidSignature index)
  verifyP2sh _ _ _ := .ok false
  verifyP2pkh _ _ _ := .ok false

/-- An output that pays to the hash of the script `OP_1`. -/
def hashedOutput : TxOutput := ⟨1000, [0x00, 0x20] ++ (Sha256.sha256 [0x51]).bytes⟩

def hashedSet : UtxoSet := (∅ : UtxoSet).insert ⟨Bytes32.zero, 0⟩ ⟨hashedOutput, 1, false⟩

/-- The transaction that spends the output with the given witness. -/
def spendWith (stack : List (List UInt8)) : Transaction :=
  { version := 1
    inputs := [⟨⟨Bytes32.zero, 0⟩, [], 0xffffffff, ⟨stack⟩⟩]
    outputs := [⟨900, [0x51]⟩]
    lockTime := 0 }

def spendCall (stack : List (List UInt8)) : Call :=
  .transaction (spendWith stack) hashedSet 10 none 0

theorem hashedSet_denotes : Denotes (fun _ => hashedOutput) hashedSet := by
  intro o utxo h
  rw [hashedSet, lookup_insert_eq] at h
  split at h
  · rw [← Option.some.inj h]
  · simp at h

theorem inputKey_spendWith (stack stack' : List (List UInt8)) (index : ℕ) :
    inputKey smallEngine (spendWith stack) index = inputKey smallEngine (spendWith stack') index :=
  rfl

theorem verify_spendWith (stack : List (List UInt8)) :
    verifyOutput smallEngine (spendWith stack) 0 hashedOutput [1000] [hashedOutput.scriptPubkey] =
      verifyWitnessScript smallEngine (spendWith stack) 0 (Sha256.sha256 [0x51]).bytes 1000 stack := by
  have hlen := (Sha256.sha256 [0x51]).length_eq
  simp [verifyOutput, spendWith, hashedOutput, isP2wpkh, isP2wsh, hlen]

theorem verify_spendWith_script : verifyOutput smallEngine (spendWith [[0x51]]) 0 hashedOutput [1000]
      [hashedOutput.scriptPubkey] = .ok () := by
  rw [verify_spendWith]
  show (do require ((Sha256.sha256 [0x51]).bytes = (Sha256.sha256 [0x51]).bytes) _; _) = _
  rw [require, if_pos rfl]
  rfl

theorem verify_spendWith_nothing :
    verifyOutput smallEngine (spendWith []) 0 hashedOutput [1000] [hashedOutput.scriptPubkey] =
      .error (.invalidSignature 0) := by
  rw [verify_spendWith]
  rfl

theorem spendCall_uncached (stack : List (List UInt8)) : (spendCall stack).uncached smallEngine =
      verifyOutput smallEngine (spendWith stack) 0 hashedOutput [1000]
        [hashedOutput.scriptPubkey] := by
  have hsum : (spendCall stack).uncached smallEngine =
      (verifyOutput smallEngine (spendWith stack) 0 hashedOutput [1000]
        [hashedOutput.scriptPubkey] >>= fun _ => .ok (1000 : UInt64)) >>=
      fun sum => require (900 ≤ sum) .insufficientFunds := rfl
  rw [hsum]
  cases verifyOutput smallEngine (spendWith stack) 0 hashedOutput [1000]
    [hashedOutput.scriptPubkey] with
  | error e => rfl
  | ok _ => rfl

theorem spendCall_returns {stack : List (List UInt8)} {cache cache' : SigCache}
    (h : (verifyInputSignature smallEngine (spendWith stack) 0 ⟨hashedOutput, 1, false⟩ [1000]
      [hashedOutput.scriptPubkey]).run.runAlone cache = (.ok (), cache')) :
    (spendCall stack).Returns smallEngine cache (.ok ()) cache' := by
  have hsum : validateTransactionCached smallEngine 0 (spendWith stack) hashedSet 10 none =
      (verifyInputSignature smallEngine (spendWith stack) 0 ⟨hashedOutput, 1, false⟩ [1000]
        [hashedOutput.scriptPubkey] >>= fun _ => pure (1000 : UInt64)) >>=
      fun sum => check (require (900 ≤ sum) .insufficientFunds) := rfl
  have hrun : (validateTransactionCached smallEngine 0 (spendWith stack) hashedSet 10
      none).run.runAlone cache = (.ok (), cache') := by
    rw [hsum, ExceptT.run_bind, Program.runAlone_bind, ExceptT.run_bind, Program.runAlone_bind, h]
    rfl
  have hreturns := returns_runAlone smallEngine (spendWith stack) hashedSet 10 none 0 cache
  rw [hrun] at hreturns
  exact hreturns

end SpendOfAScriptHash

/-- Calls that share a cache, new at the start, all return, and return what they do without it, if
inputs with one cache key verify together. -/
theorem cached_results_uncached (eng : Engine) (outputs : OutPoint → TxOutput) (calls : List Call)
    (hu : ∀ call ∈ calls, Denotes outputs call.utxoSet)
    (htogether : VerifyTogether eng outputs (calls.flatMap Call.transactions)) :
    (∃ results cache, History eng SigCache.new calls results cache) ∧
      ∀ results cache, History eng SigCache.new calls results cache →
        results = calls.map (Call.uncached eng) := by
  refine ⟨exists_history eng calls SigCache.new, fun results cache h => ?_⟩
  refine history_uncached htogether hu (fun call hcall tx htx => ?_) h genuine_new
  exact List.mem_flatMap.mpr ⟨call, hcall, htx⟩

/-- Validating a transaction a second time, as for a block after the mempool. -/
theorem spend_twice_uncached : (∃ results cache, History smallEngine SigCache.new
      [spendCall [[0x51]], spendCall [[0x51]]] results cache) ∧
      ∀ results cache, History smallEngine SigCache.new
        [spendCall [[0x51]], spendCall [[0x51]]] results cache →
        results = [spendCall [[0x51]], spendCall [[0x51]]].map (Call.uncached smallEngine) := by
  refine cached_results_uncached smallEngine (fun _ => hashedOutput) _ ?_ ?_
  · intro call hcall
    have heq : call = spendCall [[0x51]] := by simpa using hcall
    rw [heq]
    exact hashedSet_denotes
  · refine verifyTogether_of_distinct_keys fun tx htx tx' htx' index hlt index' hlt' _ => ?_
    have heq : tx = spendWith [[0x51]] := by
      simpa [spendCall, Call.transactions] using htx
    have heq' : tx' = spendWith [[0x51]] := by
      simpa [spendCall, Call.transactions] using htx'
    subst heq
    subst heq'
    have hindex : index < 1 := hlt
    have hindex' : index' < 1 := hlt'
    exact ⟨rfl, by omega⟩

/-- After a transaction has verified, the same transaction without its witness is accepted, which
alone is rejected. -/
theorem stripped_witness_accepted :
    (∀ call ∈ [spendCall [[0x51]], spendCall []], Denotes (fun _ => hashedOutput) call.utxoSet) ∧
    (∃ cache, History smallEngine SigCache.new [spendCall [[0x51]], spendCall []]
      [.ok (), .ok ()] cache) ∧
    [spendCall [[0x51]], spendCall []].map (Call.uncached smallEngine) =
      [.ok (), .error (.invalidSignature 0)] := by
  refine ⟨?_, ?_, ?_⟩
  · intro call hcall
    rcases List.mem_cons.mp hcall with rfl | hcall
    · exact hashedSet_denotes
    · rw [List.mem_singleton.mp hcall]
      exact hashedSet_denotes
  · have hfirst := spendCall_returns (verifyInputSignature_of_notMem
      (Finset.notMem_empty _) verify_spendWith_script)
    have hmem : inputKey smallEngine (spendWith []) 0 ∈
        SigCache.insert ∅ (inputKey smallEngine (spendWith [[0x51]]) 0) := by
      rw [inputKey_spendWith [] [[0x51]]]
      exact Finset.mem_insert_self _ _
    have hsecond := spendCall_returns (verifyInputSignature_of_mem hmem)
    exact ⟨_, History.cons hfirst (History.cons hsecond (History.nil _))⟩
  · rw [List.map_cons, List.map_cons, List.map_nil, spendCall_uncached, spendCall_uncached,
      verify_spendWith_script, verify_spendWith_nothing]

end KuberCoin.SigCaches
