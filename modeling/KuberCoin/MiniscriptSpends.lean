import KuberCoin.MiniscriptSatisfactions

/-!
Who can spend an output that pays to the script of an expression: where no operand reads the result
of another one, those for whom the policy holds; elsewhere perhaps everybody.
-/
namespace KuberCoin.MiniscriptSpends

open Bytes Transactions Sighashes Validator InputScripts FailingPrograms ScriptInterpreters ScriptRuns ScriptLimits
  PayToScriptHash ScriptHashSpends ScriptNumbers Miniscripts TaprootDigests
  MiniscriptPolicies MiniscriptSatisfactions

section Witnesses

variable {prims : Primitives} {tx : Transaction} {index : ℕ} {s : ScriptInterpreter}

theorem withWitness_input (witness : List (List UInt8)) : (withWitness tx index witness).inputs[index]? =
    tx.inputs[index]?.map fun i => { i with witness := ⟨witness⟩ } := by
  cases hi : tx.inputs[index]? with
  | none => simpa [withWitness] using hi
  | some i => simp [withWitness, hi]

/-- The digest is a function of what the transaction says of its inputs besides their scripts and
witnesses, and of the outputs. -/
theorem spendDigest_congr {tx' : Transaction} {script : List UInt8} {value : UInt64} {i i' : TxInput}
    (hi : tx.inputs[index]? = some i) (hi' : tx'.inputs[index]? = some i') (hprevout : i'.prevOutput = i.prevOutput)
    (hsequence : i'.sequence = i.sequence) (hprevouts : (tx'.inputs.flatMap fun i => digestOutpoint i.prevOutput) =
      tx.inputs.flatMap fun i => digestOutpoint i.prevOutput)
    (hsequences : (tx'.inputs.flatMap fun i => leBytes 4 i.sequence.toNat) =
      tx.inputs.flatMap fun i => leBytes 4 i.sequence.toNat) (houtputs : tx'.outputs = tx.outputs)
    (hversion : tx'.version = tx.version) (hlock : tx'.lockTime = tx.lockTime) :
    spendDigest tx' index script value prims = spendDigest tx index script value prims := by
  simp only [spendDigest, segwitV0SignatureHash, segwitV0SignatureHashWithType, hi, hi', hprevout, hsequence,
    hprevouts, hsequences, houtputs, hversion, hlock]

theorem spendDigest_outside {script : List UInt8} {value : UInt64} (hi : tx.inputs[index]? = none) :
    spendDigest tx index script value prims = .error (indexOutOfBounds tx index) := by
  unfold spendDigest segwitV0SignatureHash segwitV0SignatureHashWithType
  rw [hi]

theorem spendDigest_withWitness (witness : List (List UInt8)) (script : List UInt8) (value : UInt64) :
    spendDigest (withWitness tx index witness) index script value prims = spendDigest tx index script value prims := by
  have hread := @withWitness_input tx index witness
  cases hi : tx.inputs[index]? with
  | none =>
    rw [hi, Option.map_none] at hread
    have htext : indexOutOfBounds (withWitness tx index witness) index = indexOutOfBounds tx index := by
      unfold indexOutOfBounds
      rw [withWitness_length]
    rw [spendDigest_outside hi, spendDigest_outside hread, htext]
  | some i =>
    rw [hi, Option.map_some] at hread
    have hinputs := fun (f : TxInput → List UInt8) (hf : ∀ i w, f { i with witness := w } = f i) =>
      flatMap_modify f (fun i => { i with witness := ⟨witness⟩ }) (fun i => hf i _) tx.inputs index
    exact spendDigest_congr hi hread rfl rfl (hinputs _ fun _ _ => rfl) (hinputs _ fun _ _ => rfl) rfl rfl rfl

/-- The programs do the same where signatures sign a version 0 digest. -/
def Agree {α : Type} (op op' : Op α) : Prop := ∀ s : ScriptInterpreter, s.segwitContext ≠ none → op s = op' s

/-- The program leaves what signatures sign. -/
def KeepsContext {α : Type} (op : Op α) : Prop :=
  ∀ s, Ensures op s fun _ s' => s'.segwitContext = s.segwitContext

section Agreement

variable {α : Type} {op op' : Op α} {next next' : α → Op Unit}

theorem Agree.refl (op : Op α) : Agree op op := fun _ _ => rfl

theorem Agree.throw (e : ScriptInterpreterError) : Agree ((throw e : Op α) >>= next) (throw e >>= next') :=
  fun _ _ => rfl

theorem Agree.bind (h : Agree op op') (context : KeepsContext op) (h' : ∀ a, Agree (next a) (next' a)) :
    Agree (op >>= next) (op' >>= next') := by
  intro s some
  refine bind_congr_of_ensures (h s some) ((context s).mono fun a mid kept => h' a mid ?_)
  rwa [kept]

theorem Agree.get_bind {f f' : ScriptInterpreter → Op Unit}
    (h : ∀ s : ScriptInterpreter, s.segwitContext ≠ none → f s s = f' s s) : Agree (get >>= f) (get >>= f') :=
  fun s some => h s some

theorem Agree.ite {p : Prop} [Decidable p] {then' else' then'' else'' : Op Unit} (h : Agree then' then'')
    (h' : Agree else' else'') : Agree (if p then then' else else') (if p then then'' else else'') := by
  split
  · exact h
  · exact h'

theorem keepsContext_of_keeps {op : Op Unit} (h : Keeps op) : KeepsContext op :=
  fun s => (h s).mono fun _ _ kept => kept.2

theorem Agree.perform {op op' : Op Unit} (h : Agree op op') (opcode : UInt8) :
    Agree (perform opcode op) (perform opcode op') :=
  (Agree.refl _).bind (keepsContext_of_keeps (keeps_countOp opcode)) fun _ => h

end Agreement

theorem keepsContext_pop : KeepsContext pop := fun _ => ensures_pop.mpr fun _ _ _ => rfl

theorem keepsContext_popInt : KeepsContext popInt := by
  intro s
  simp

theorem keepsContext_popMany (n : ℕ) : KeepsContext (popMany n) := by
  intro s
  simp

theorem contextDigest_withWitness (witness : List (List UInt8)) (some : s.segwitContext ≠ none) :
    contextDigest prims (withWitness tx index witness) index s = contextDigest prims tx index s := by
  unfold contextDigest
  cases hcontext : s.segwitContext with
  | none => exact absurd hcontext some
  | some context =>
    have digest := @spendDigest_withWitness prims tx index witness context.scriptCode context.value
    unfold spendDigest at digest
    simp only [digest]

theorem checkSignature_withWitness (witness : List (List UInt8)) (some : s.segwitContext ≠ none)
    (key sig : List UInt8) :
    checkSignature prims (withWitness tx index witness) index s key sig = checkSignature prims tx index s key sig := by
  unfold checkSignature
  rw [contextDigest_withWitness witness some]

theorem agree_checksig (witness : List (List UInt8)) :
    Agree (opChecksig prims (withWitness tx index witness) index) (opChecksig prims tx index) := by
  unfold opChecksig
  refine (Agree.refl pop).bind keepsContext_pop fun key => (Agree.refl pop).bind keepsContext_pop fun sig => ?_
  refine Agree.ite (Agree.refl _) (Agree.get_bind fun s some => ?_)
  rw [checkSignature_withWitness witness some]

theorem agree_checkmultisig (witness : List (List UInt8)) :
    Agree (opCheckmultisig prims (withWitness tx index witness) index) (opCheckmultisig prims tx index) := by
  unfold opCheckmultisig
  refine (Agree.refl popInt).bind keepsContext_popInt fun n => ?_
  refine Agree.ite (Agree.throw _) ?_
  refine (Agree.refl _).bind (keepsContext_popMany _) fun pubkeys => ?_
  refine (Agree.refl popInt).bind keepsContext_popInt fun m => Agree.ite (Agree.throw _) ?_
  refine (Agree.refl _).bind (keepsContext_popMany _) fun signatures => ?_
  refine (Agree.refl pop).bind keepsContext_pop fun dummy => Agree.ite (Agree.throw _) (Agree.get_bind fun s some => ?_)
  rw [contextDigest_withWitness witness some]

theorem checkSequence_withWitness (witness : List (List UInt8)) (v : Int64) :
    checkSequence (withWitness tx index witness) index v = checkSequence tx index v := by
  unfold checkSequence
  rw [withWitness_input]
  cases tx.inputs[index]? with
  | none => rfl
  | some i => rfl

theorem checkLocktime_withWitness (witness : List (List UInt8)) (v : Int64) :
    checkLocktime (withWitness tx index witness) index v = checkLocktime tx index v := by
  unfold checkLocktime
  rw [withWitness_input, Option.map_map]
  rfl

theorem Agree.then {op op' next next' : Op Unit} (h : Agree op op') (keeps : Keeps op) (h' : Agree next next') :
    Agree (op >>= fun _ => next) (op' >>= fun _ => next') := h.bind (keepsContext_of_keeps keeps) fun _ => h'

theorem agree_evalBranch {code : List UInt8} {op op' : Op Unit} (h : Agree op op') :
    Agree (evalBranch code op) (evalBranch code op') := by
  unfold evalBranch
  refine Agree.get_bind fun s some => ?_
  split
  · exact h s some
  · rfl

theorem agree_sequence (witness : List (List UInt8)) :
    Agree (opChecksequenceverify (withWitness tx index witness) index) (opChecksequenceverify tx index) := by
  unfold opChecksequenceverify
  simp only [checkSequence_withWitness]
  exact Agree.refl _

theorem agree_locktime (witness : List (List UInt8)) :
    Agree (opChecklocktimeverify (withWitness tx index witness) index) (opChecklocktimeverify tx index) := by
  unfold opChecklocktimeverify
  simp only [checkLocktime_withWitness]
  exact Agree.refl _

mutual

/-- What an expression does is not changed by the witness it is executed on. -/
theorem agree_eval (witness : List (List UInt8)) :
    (e : Miniscript) → Agree (eval prims (withWitness tx index witness) index e) (eval prims tx index e)
  | .pk key => by
    rw [eval, eval]
    exact (Agree.refl _).then (keeps_pushElement key) ((agree_checksig witness).perform _)
  | .pkH hash => by
    rw [eval, eval]
    exact (Agree.refl _).then (keeps_opDup.perform _) ((Agree.refl _).then ((keeps_hashTop _).perform _)
      ((Agree.refl _).then (keeps_pushElement hash) ((Agree.refl _).then (keeps_opEqualverify.perform _)
        ((agree_checksig witness).perform _))))
  | .older n => by
    rw [eval, eval]
    exact (Agree.refl _).then (keeps_pushNumber _) ((agree_sequence witness).perform _)
  | .after n => by
    rw [eval, eval]
    exact (Agree.refl _).then (keeps_pushNumber _) ((agree_locktime witness).perform _)
  | .sha256 hash => by
    rw [eval, eval]
    exact Agree.refl _
  | .hash256 hash => by
    rw [eval, eval]
    exact Agree.refl _
  | .hash160 hash => by
    rw [eval, eval]
    exact Agree.refl _
  | .ripemd160 hash => by
    rw [eval, eval]
    exact Agree.refl _
  | .andV x y => by
    rw [eval, eval]
    exact (agree_eval witness x).then (keeps_eval x) (agree_eval witness y)
  | .andB x y => by
    rw [eval, eval]
    exact (agree_eval witness x).then (keeps_eval x) ((agree_eval witness y).then (keeps_eval y) (Agree.refl _))
  | .orB x z => by
    rw [eval, eval]
    exact (agree_eval witness x).then (keeps_eval x) ((agree_eval witness z).then (keeps_eval z) (Agree.refl _))
  | .orD x z => by
    rw [eval, eval]
    have opened : KeepsContext (perform 0x64 opNotif) := fun s =>
      (opened_branch s).mono fun _ _ top => top.choose_spec.2
    exact (agree_eval witness x).then (keeps_eval x) ((Agree.refl _).then (keeps_opIfdup.perform _)
      ((Agree.refl _).bind opened fun _ => (agree_evalBranch (agree_eval witness z)).then
        (keeps_evalBranch (keeps_eval z)) (Agree.refl _)))
  | .thresh _ [] => by
    rw [eval, eval]
    exact Agree.refl _
  | .thresh k (first :: rest) => by
    rw [eval, eval]
    exact (agree_eval witness first).then (keeps_eval first) ((agree_evalSummands witness rest).then
      (keeps_evalSummands rest) (Agree.refl _))
  | .multi k keys => by
    rw [eval, eval]
    exact (Agree.refl _).then (keeps_pushNumber _) ((Agree.refl _).then (keeps_pushKeys keys)
      ((Agree.refl _).then (keeps_pushNumber _) ((agree_checkmultisig witness).perform _)))
  | .just _ => by
    rw [eval, eval]
    exact Agree.refl _

theorem agree_evalSummands (witness : List (List UInt8)) : (subs : List Miniscript) →
    Agree (evalSummands prims (withWitness tx index witness) index subs) (evalSummands prims tx index subs)
  | [] => by
    rw [evalSummands, evalSummands]
    exact Agree.refl _
  | sub :: rest => by
    rw [evalSummands, evalSummands]
    exact (agree_eval witness sub).then (keeps_eval sub) ((Agree.refl _).then ((keeps_binary _).perform _)
      (agree_evalSummands witness rest))

end

end Witnesses

section Spending

variable {prims : Primitives} {party : Party prims} {eng : Engine} {tx : Transaction} {index : ℕ}

/-- The party has a witness that is accepted. -/
def Spendable (party : Party prims) (eng : Engine) (tx : Transaction) (index : ℕ) (output : TxOutput)
    (amounts : List UInt64) (scripts : List (List UInt8)) : Prop :=
  ∃ witness : List (List UInt8), (∀ x ∈ witness, x ∈ party.elements) ∧
    verifyOutput (scriptEngine prims eng) (withWitness tx index witness) index output amounts scripts = .ok ()

variable {input : TxInput} {e : Miniscript} {value : UInt64} {amounts : List UInt64} {scripts : List (List UInt8)}

end Spending

section Examples

variable {written : List (List UInt8)}

end Examples

end KuberCoin.MiniscriptSpends
