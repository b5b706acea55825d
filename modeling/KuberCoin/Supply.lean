import KuberCoin.ChainInvariants

/-!
The total value of the UTXO set.
A transaction other than a coinbase never adds value, and the reward check bounds what
the coinbase adds, as long as the sum of the coinbase outputs does not wrap. So the set a
branch leaves never holds more than the subsidies of its blocks.
-/
namespace KuberCoin.Supply

open Bytes Maps Transactions Blocks UtxoSets Params Difficulty Validator Storage NodeStates
  NodeStates.NodeState AddBlock Frames BlockEffects StepCases Runs Branches ChainInvariants

section Transactions

variable {sha256 : Sha256} {height : ℕ}

/-- The exact value of the entries a transaction consumes. -/
def consumedValue (u : UtxoSet) (tx : Transaction) : ℕ := ((consumed tx).map (valueAt u)).sum

theorem coinsFrom_value (txid : Bytes32) (coinbase : Bool) (vout : ℕ) (outs : List TxOutput) :
    ((coinsFrom txid height coinbase vout outs).map fun kv => kv.2.output.value.toNat).sum =
      (outs.map fun o => o.value.toNat).sum := by
  induction outs generalizing vout with
  | nil => rfl
  | cons out rest ih =>
    rw [coinsFrom, List.map_cons, List.sum_cons, List.map_cons, List.sum_cons, ih]

theorem supply_applied {u u' : UtxoSet} {tx : Transaction} {undo : TxUndoData} (h : Applied sha256 height u tx undo u')
    (hnodup : (consumed tx).Nodup) : supply u' + consumedValue u tx = supply u + outputValue tx := by
  have hspent : supply (eraseAll u (consumed tx)) + consumedValue u tx = supply u := by
    apply total_eraseAll _ _ _ _ hnodup
    intro o ho
    obtain ⟨c, hc⟩ := h.present o ho
    exact ⟨c, hc, by simp [valueAt, hc]⟩
  have hmade : supply u' = supply (eraseAll u (consumed tx)) + outputValue tx := by
    unfold supply outputValue
    rw [h.set, total_insertAll _ _ _ (coinsOf_nodup h.few)]
    · rw [coinsOf, coinsFrom_value]
    · intro o ho
      rw [coinsOf_keys] at ho
      exact h.fresh o ho
  omega

theorem supply_applied_transactions {txs : List Transaction} {u u' : UtxoSet} {undos : List TxUndoData}
    (h : applyTransactionsWithUndo sha256 height u txs = (.ok undos, u')) (hnodup : (txs.flatMap consumed).Nodup)
    (hapart : ∀ s ∈ txs, ∀ t ∈ txs, ∀ o ∈ created sha256 s, o ∉ consumed t) :
    supply u' + (txs.map (consumedValue u)).sum = supply u + (txs.map outputValue).sum := by
  induction txs generalizing u undos with
  | nil =>
    simp only [applyTransactionsWithUndo, Prod.mk.injEq] at h
    simp [h.2]
  | cons tx rest ih =>
    obtain ⟨undo, u₁, undos', htx, hrest, rfl⟩ := applyTransactionsWithUndo_cons sha256 h
    have happlied := applyTransactionWithUndo_ok sha256 htx
    rw [List.flatMap_cons, List.nodup_append] at hnodup
    obtain ⟨hhead, htail, hdisjoint⟩ := hnodup
    have hvalues : rest.map (consumedValue u₁) = rest.map (consumedValue u) := by
      apply List.map_congr_left
      intro t ht
      unfold consumedValue
      apply congrArg
      apply List.map_congr_left
      intro o ho
      have hnew : o ∉ created sha256 tx := by
        intro hin
        exact hapart tx (by simp) t (List.mem_cons_of_mem _ ht) o hin ho
      have hkept : o ∉ consumed tx := by
        intro hin
        exact hdisjoint o hin o (List.mem_flatMap.mpr ⟨t, ht, ho⟩) rfl
      unfold valueAt
      rw [lookup_applied happlied hnew hkept]
    have hone := supply_applied happlied hhead
    have hall := ih hrest htail fun s hs t ht =>
      hapart s (List.mem_cons_of_mem _ hs) t (List.mem_cons_of_mem _ ht)
    rw [hvalues] at hall
    rw [List.map_cons, List.sum_cons, List.map_cons, List.sum_cons]
    omega

end Transactions

section Blocks

variable {sha256 : Sha256} {b : Block} {u u' : UtxoSet} {coinbase : Transaction}
  {txs : List Transaction}

/-- The sum of the coinbase outputs does not wrap. -/
def CoinbaseExact (b : Block) : Prop := ∀ tx, b.transactions.head? = some tx → outputValue tx < 2 ^ 64

theorem consumedValue_of_not_coinbase {tx : Transaction} (h : tx.isCoinbase = false) :
    consumedValue u tx = inputValue u tx := by
  unfold consumedValue inputValue
  rw [consumed_of_not_coinbase h, List.map_map]
  rfl

/-- The fees of checked transactions are what their inputs carry beyond their outputs; their
wrapped sum is no more than that. -/
theorem fees_le {height : ℕ} (h : ∀ tx ∈ txs, TxChecked u height tx) :
    ((txs.map (txFee u)).sum).toNat + (txs.map outputValue).sum ≤ (txs.map (inputValue u)).sum := by
  have hexact : ((txs.map (txFee u)).map UInt64.toNat).sum + (txs.map outputValue).sum =
      (txs.map (inputValue u)).sum := by
    induction txs with
    | nil => rfl
    | cons tx rest ih =>
      have hrest := ih fun t ht => h t (List.mem_cons_of_mem _ ht)
      have hfee := txFee_toNat (h tx (by simp))
      have hbalanced := (h tx (by simp)).balanced
      simp only [List.map_cons, List.sum_cons]
      omega
  rw [sum_toNat]
  have := Nat.mod_le ((txs.map (txFee u)).map UInt64.toNat).sum (2 ^ 64)
  omega

theorem supply_block (h : Validated sha256 b u coinbase txs) {undo : BlockUndoData}
    (happly : applyBlockWithUndo sha256 u b = (.ok undo, u')) (hexact : CoinbaseExact b) :
    supply u' ≤ supply u + (blockSubsidy b.header.height).toNat := by
  have hmoved := supply_applied_transactions (applyBlockWithUndo_ok sha256 happly)
    (by rw [h.consumed_eq]; exact h.nodup) h.apart
  rw [h.split, List.map_cons, List.sum_cons, List.map_cons, List.sum_cons] at hmoved
  have hinputs : txs.map (consumedValue u) = txs.map (inputValue u) :=
    List.map_congr_left fun tx htx => consumedValue_of_not_coinbase (h.others tx htx)
  rw [hinputs] at hmoved
  have hreward : outputValue coinbase ≤
      (blockSubsidy b.header.height).toNat + ((txs.map (txFee u)).sum).toNat := by
    have hle := UInt64.le_iff_toNat_le.mp h.reward
    have hsmall : outputValue coinbase < 2 ^ 64 := hexact coinbase (by rw [h.split]; rfl)
    rw [sum_toNat, List.map_map] at hle
    unfold maxCoinbaseValue at hle
    rw [saturatingAdd_toNat] at hle
    unfold outputValue at hsmall ⊢
    have hsum : (coinbase.outputs.map (UInt64.toNat ∘ TxOutput.value)).sum =
        (coinbase.outputs.map fun o => o.value.toNat).sum := rfl
    rw [hsum, Nat.mod_eq_of_lt hsmall] at hle
    omega
  have hfees := fees_le h.checked
  omega

end Blocks

section Runs

variable {cx : Context}

/-- The genesis block creates no more than the first subsidy. -/
theorem supply_genesis {u : UtxoSet} (h : applyBlock cx.sha256 ∅ cx.genesis = (.ok (), u)) :
    supply u ≤ mintedBelow 1 := by
  rw [applyBlock_eq] at h
  cases hundo : applyBlockWithUndo cx.sha256 ∅ cx.genesis with
  | mk r u' =>
    rw [hundo] at h
    cases r with
    | error e => simp [Except.map] at h
    | ok undo =>
      obtain rfl : u' = u := (Prod.mk.inj h).2
      have hnone : cx.genesis.transactions.flatMap consumed = [] := rfl
      have hmoved := supply_applied_transactions (applyBlockWithUndo_ok cx.sha256 hundo)
        (by rw [hnone]; exact List.nodup_nil)
        (by
          intro s _ t ht o _ ho
          have := List.mem_flatMap.mpr ⟨t, ht, ho⟩
          rw [hnone] at this
          simp at this)
      have hempty : supply (∅ : UtxoSet) = 0 := total_empty _
      have hreward : (cx.genesis.transactions.map outputValue).sum ≤ mintedBelow 1 := by
        change ([createGenesisCoinbase cx.network
          (NetworkParams.forNetwork cx.network).initialBlockReward].map outputValue).sum ≤ _
        cases cx.network
        · decide
        · decide
        · decide
      omega

theorem ValidBranch.supply_le {bs : List Block} {u : UtxoSet} (h : ValidBranch cx bs u)
    (hexact : ∀ b ∈ bs, b ≠ cx.genesis → CoinbaseExact b) : supply u ≤ mintedBelow bs.length := by
  induction h with
  | genesis happly => exact supply_genesis happly
  | @extend b parent rest u u' clock mtp undo hbranch hprev hheight hvalid happly ih =>
    have hbelow := ih fun x hx => hexact x (List.mem_cons_of_mem _ hx)
    have hne : b ≠ cx.genesis := by
      rintro rfl
      exact absurd hheight (Nat.succ_ne_zero _).symm
    obtain ⟨coinbase, txs, hv⟩ := validateBlockCached_ok hvalid
    have hblock := supply_block hv happly (hexact b (by simp) hne)
    have hlevel : b.header.height = (parent :: rest).length := by
      rw [hheight, hbranch.height_eq, List.length_cons]
    have hminted : mintedBelow (b :: parent :: rest).length =
        mintedBelow (parent :: rest).length + (blockSubsidy b.header.height).toNat := by
      rw [hlevel, List.length_cons, mintedBelow, mintedBelow, Finset.sum_range_succ]
    omega

variable {K : Block → Prop}

theorem NodeInv.supply_le {s : NodeState} (h : NodeInv cx K s) (hexact : ∀ b, K b → b ≠ cx.genesis → CoinbaseExact b) :
    supply s.utxoSet ≤ mintedBelow (s.height + 1) := by
  obtain ⟨bs, hbs⟩ := h.chain
  rw [← hbs.height]
  exact ValidBranch.supply_le hbs.branch fun b hb => hexact b (hbs.known b hb)

/-- In every run of clean calls whose coinbase sums do not wrap, the UTXO set holds at most the
subsidies up to the height of the node, at the end and before each call. -/
theorem run_supply_le {s : NodeState} {calls : List Call} (hrun : Run cx s calls)
    (hcf : CollisionFree cx (Known cx calls)) (hclean : ∀ c ∈ calls, Clean cx c)
    (hexact : ∀ c ∈ calls, CoinbaseExact c.block) : supply s.utxoSet ≤ mintedBelow (s.height + 1) ∧
      (∀ c ∈ calls, supply c.before.utxoSet ≤ mintedBelow (c.before.height + 1)) ∧
      ∀ n, mintedBelow n ≤ maxSupply.toNat := by
  have hknown : ∀ c ∈ calls, Known cx calls c.block := fun c hc => Or.inr ⟨c, hc, rfl⟩
  have hexact' : ∀ b, Known cx calls b → b ≠ cx.genesis → CoinbaseExact b := by
    rintro b (rfl | ⟨c, hc, rfl⟩) hne
    · exact absurd rfl hne
    · exact hexact c hc
  obtain ⟨hs, hbefore⟩ := run_nodeInv hcf hrun hknown hclean
  refine ⟨NodeInv.supply_le hs hexact', ?_, mintedBelow_le_maxSupply⟩
  intro c hc
  exact NodeInv.supply_le (hbefore c hc).1 hexact'

theorem switched_supply_le : ∃ s calls, Run scriptNode s calls ∧ s.height = 2 ∧ supply s.utxoSet = 10000000000 ∧
      supply s.utxoSet ≤ mintedBelow (s.height + 1) := by
  obtain ⟨s, calls, o, hswitched, h⟩ := exists_switched
  have hminted : switched.any (fun p => decide (supply p.2.2.state.utxoSet = 10000000000)) = true := by
    rw [← runSwitched_eq]
    decide +kernel
  rw [hswitched, Option.any_some, decide_eq_true_eq] at hminted
  have hexact : ∀ c ∈ calls ++ o.calls, CoinbaseExact c.block := by
    intro c hc
    have hmem := Switched.known h (Or.inr ⟨c, hc, rfl⟩)
    have hall : ∀ b ∈ [scriptNode.genesis, firstBranch, paidBranch, spendingTip], CoinbaseExact b := by
      simp only [List.forall_mem_cons]
      refine ⟨?_, ?_, ?_, ?_, List.forall_mem_nil _⟩ <;> rintro tx htx <;> obtain rfl := Option.some.inj htx <;>
        decide +kernel
    exact hall _ hmem
  have hbound := run_supply_le h.fullRun (Switched.collisionFree h) (fun c hc => Or.inl (h.calm c hc).result) hexact
  exact ⟨_, _, h.fullRun, h.height, hminted, hbound.1⟩

/-- A coinbase whose outputs add up to zero modulo 2^64. -/
def inflatingCoinbase : Transaction :=
  { emptyCoinbase with outputs := [⟨2 ^ 63, [0x51]⟩, ⟨2 ^ 63, [0x51]⟩] }

theorem wrapped_coinbase_inflates : ∃ s calls, Run regtest s calls ∧ mintedBelow (s.height + 1) < supply s.utxoSet ∧
      maxSupply.toNat < supply s.utxoSet := by
  have hevaluated : ((nodeAfter regtest today 2 [childOf regtest.genesis [inflatingCoinbase] 0]).any
      fun s => decide (mintedBelow (s.height + 1) < supply s.utxoSet ∧
        maxSupply.toNat < supply s.utxoSet)) = true := by
    rw [← runChildOf_eq, ← runRegtest_eq]
    decide +kernel
  obtain ⟨s, hs, hstate⟩ := Option.any_eq_true _ _ |>.mp hevaluated
  obtain ⟨calls, hrun⟩ := run_nodeAfter hs
  exact ⟨s, calls, hrun, of_decide_eq_true hstate⟩

end Runs

end KuberCoin.Supply
