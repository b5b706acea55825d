import KuberCoin.BestChain

/-!
Where the coins of a chain come from.
Every entry of the UTXO set a valid branch leaves was created by one of its blocks, and
was neither spent nor created again since. So every input on the branch spends an output
of an earlier block that nothing spent in between, and a coinbase output is old enough.
-/
namespace KuberCoin.Spending

open Bytes Maps Transactions Blocks UtxoSets Params Difficulty Validator Storage NodeStates
  NodeStates.NodeState AddBlock Frames BlockEffects StepCases Runs Branches ChainInvariants
  BestChain

/-- Some transaction of the block consumes the outpoint. -/
def Spends (b : Block) (o : OutPoint) : Prop := ∃ tx ∈ b.transactions, o ∈ consumed tx

/-- Some transaction of the block creates the outpoint. -/
def Creates (sha256 : Sha256) (b : Block) (o : OutPoint) : Prop :=
  ∃ tx ∈ b.transactions, o ∈ created sha256 tx

section Blocks

variable {sha256 : Sha256} {height : ℕ} {o : OutPoint} {c : UTXO}

/-- An entry after some transactions is a coin of one of them, or was there before and none
of them consumed it. -/
theorem lookup_applied_transactions {txs : List Transaction} {u u' : UtxoSet} {undos : List TxUndoData}
    (h : applyTransactionsWithUndo sha256 height u txs = (.ok undos, u')) (hc : u'.lookup o = some c) :
    (∃ tx ∈ txs, (o, c) ∈ coinsOf sha256 tx height) ∨
      ((∀ tx ∈ txs, o ∉ consumed tx) ∧ u.lookup o = some c) := by
  induction txs generalizing u undos with
  | nil =>
    simp only [applyTransactionsWithUndo, Prod.mk.injEq] at h
    rw [← h.2] at hc
    exact Or.inr ⟨by simp, hc⟩
  | cons tx rest ih =>
    obtain ⟨undo, u₁, undos', htx, hrest, rfl⟩ := applyTransactionsWithUndo_cons sha256 h
    rcases ih hrest with ⟨t, ht, hcoin⟩ | ⟨hkept, hold⟩
    · exact Or.inl ⟨t, List.mem_cons_of_mem _ ht, hcoin⟩
    · rcases lookup_applied_some (applyTransactionWithUndo_ok sha256 htx) hold with hcoin | ⟨hhead, hold⟩
      · exact Or.inl ⟨tx, by simp, hcoin⟩
      · refine Or.inr ⟨?_, hold⟩
        rw [List.forall_mem_cons]
        exact ⟨hhead, hkept⟩

theorem coin_eq {tx : Transaction} (h : (o, c) ∈ coinsOf sha256 tx height) :
    c.height = height ∧ c.isCoinbase = tx.isCoinbase := by
  obtain ⟨i, out, -, -, rfl⟩ := (mem_coinsFrom (tx.txid sha256) height tx.isCoinbase).mp h
  exact ⟨rfl, rfl⟩

end Blocks

section Origins

variable (cx : Context) {chain : List Block} {b : Block} {o : OutPoint}

/-- The block at position `k` created the entry, and no block of the chain has spent or
created the outpoint since. -/
structure Origin (chain : List Block) (o : OutPoint) (k : ℕ) (tx : Transaction) : Prop where
  block : ∃ a, chain[k]? = some a ∧ tx ∈ a.transactions
  created : o ∈ created cx.sha256 tx
  unspent : ∀ m x, k ≤ m → chain[m]? = some x → ¬ Spends x o
  last : ∀ m x, k < m → chain[m]? = some x → ¬ Creates cx.sha256 x o

variable {cx}

theorem getElem?_snoc {x : Block} {m : ℕ} (h : (chain ++ [b])[m]? = some x) :
    chain[m]? = some x ∨ (m = chain.length ∧ x = b) := by
  rw [List.getElem?_append] at h
  split at h
  · exact Or.inl h
  · have hlen := (List.getElem?_eq_some_iff.mp h).1
    simp only [List.length_singleton] at hlen
    have hm : m = chain.length := by omega
    subst hm
    rw [Nat.sub_self, List.getElem?_cons_zero, Option.some.injEq] at h
    exact Or.inr ⟨rfl, h.symm⟩

theorem Origin.new {chain : List Block} {b : Block} {tx : Transaction} {o : OutPoint} (htx : tx ∈ b.transactions)
    (hcreated : o ∈ UtxoSets.created cx.sha256 tx) (hapart : ¬ Spends b o) :
    Origin cx (chain ++ [b]) o chain.length tx := by
  have hbelow : ∀ m x, chain.length ≤ m → chain[m]? ≠ some x := by
    intro m x hm hx
    have := (List.getElem?_eq_some_iff.mp hx).1
    omega
  refine ⟨⟨b, ?_, htx⟩, hcreated, ?_, ?_⟩
  · rw [List.getElem?_append_right (Nat.le_refl _), Nat.sub_self]
    rfl
  · intro m x hm hx
    rcases getElem?_snoc hx with hold | ⟨-, rfl⟩
    · exact absurd hold (hbelow m x hm)
    · exact hapart
  · intro m x hm hx
    rcases getElem?_snoc hx with hold | ⟨rfl, -⟩
    · exact absurd hold (hbelow m x (by omega))
    · omega

theorem Origin.old {tx : Transaction} {k : ℕ} (h : Origin cx chain o k tx) (hkept : ¬ Spends b o)
    (hnew : ¬ Creates cx.sha256 b o) : Origin cx (chain ++ [b]) o k tx := by
  obtain ⟨a, ha, htx⟩ := h.block
  refine ⟨⟨a, ?_, htx⟩, h.created, ?_, ?_⟩
  · rw [List.getElem?_append_left (List.getElem?_eq_some_iff.mp ha).1]
    exact ha
  · intro m x hm hx
    rcases getElem?_snoc hx with hold | ⟨-, rfl⟩
    · exact h.unspent m x hm hold
    · exact hkept
  · intro m x hm hx
    rcases getElem?_snoc hx with hold | ⟨-, rfl⟩
    · exact h.last m x hm hold
    · exact hnew

theorem genesis_spends (o : OutPoint) : ¬ Spends cx.genesis o := by
  rintro ⟨tx, htx, ho⟩
  obtain rfl := List.mem_singleton.mp htx
  rw [consumed_of_coinbase rfl] at ho
  simp at ho

theorem ValidBranch.origin {bs : List Block} {u : UtxoSet} (h : ValidBranch cx bs u) {c : UTXO}
    (hc : u.lookup o = some c) : ∃ k tx, Origin cx bs.reverse o k tx ∧ c.height = k ∧ c.isCoinbase = tx.isCoinbase := by
  induction h generalizing c with
  | genesis happly =>
    rw [applyBlock_eq] at happly
    cases hundo : applyBlockWithUndo cx.sha256 ∅ cx.genesis with
    | mk r u' =>
      rw [hundo] at happly
      cases r with
      | error e => simp [Except.map] at happly
      | ok undo =>
        obtain rfl : u' = _ := (Prod.mk.inj happly).2
        rcases lookup_applied_transactions (applyBlockWithUndo_ok cx.sha256 hundo) hc with
          ⟨tx, htx, hcoin⟩ | ⟨-, hold⟩
        · have hnew := @Origin.new cx [] cx.genesis tx o htx (mem_created_of_coin hcoin)
            (genesis_spends o)
          exact ⟨0, tx, hnew, coin_eq hcoin⟩
        · simp at hold
  | @extend b parent rest u u' clock mtp undo hbranch hprev hheight hvalid happly ih =>
    obtain ⟨coinbase, txs, hv⟩ := validateBlockCached_ok hvalid
    have hlevel : b.header.height = (parent :: rest).reverse.length := by
      rw [hheight, hbranch.height_eq, List.length_reverse, List.length_cons]
    rw [List.reverse_cons]
    rcases lookup_applied_transactions (applyBlockWithUndo_ok cx.sha256 happly) hc with
      ⟨tx, htx, hcoin⟩ | ⟨hkept, hold⟩
    · have hcreated := mem_created_of_coin hcoin
      refine ⟨_, tx, Origin.new htx hcreated ?_, ?_⟩
      · rintro ⟨t, ht, ho⟩
        exact hv.apart tx htx t ht o hcreated ho
      · rw [← hlevel]
        exact coin_eq hcoin
    · obtain ⟨k, tx, horigin, hcoin⟩ := ih hold
      refine ⟨k, tx, horigin.old ?_ ?_, hcoin⟩
      · rintro ⟨t, ht, ho⟩
        exact hkept t ht ho
      · rintro ⟨t, ht, ho⟩
        rw [hv.fresh t ht o ho] at hold
        simp at hold

end Origins

section Chains

variable (cx : Context) {bs : List Block} {u : UtxoSet} {j : ℕ} {b : Block}

/-- Every input spends an output of an earlier block that no block in between spent or created
again, an output of a coinbase only when it is mature; no block spends an outpoint twice, and
between two blocks that spend one outpoint a block creates it again. -/
structure SpendsOnce (chain : List Block) : Prop where
  earlier : ∀ j b, chain[j]? = some b → ∀ tx ∈ b.transactions, tx.isCoinbase = false →
    ∀ i ∈ tx.inputs, ∃ k t, k < j ∧ Origin cx (chain.take j) i.prevOutput k t ∧
      (t.isCoinbase = true → k + coinbaseMaturity ≤ j)
  inBlock : ∀ (j : ℕ) b, chain[j]? = some b → (b.transactions.flatMap consumed).Nodup
  between : ∀ (i j : ℕ) a b o, i < j → chain[i]? = some a → chain[j]? = some b → Spends a o → Spends b o →
    ∃ k x, i < k ∧ k < j ∧ chain[k]? = some x ∧ Creates cx.sha256 x o

variable {cx}

theorem ValidBranch.upTo (h : ValidBranch cx bs u) (hb : bs.reverse[j]? = some b) : (j = 0 ∧ b = cx.genesis) ∨
      ∃ u₀ coinbase txs, ValidBranch cx (bs.reverse.take j).reverse u₀ ∧
        Validated cx.sha256 b u₀ coinbase txs ∧ b.header.height = j := by
  have hheight := h.height_getElem? hb
  obtain ⟨hj, hget⟩ := List.getElem?_eq_some_iff.mp hb
  have hsplit : bs = (bs.reverse.drop (j + 1)).reverse ++ b :: (bs.reverse.take j).reverse := by
    have hcut := List.take_append_drop j bs.reverse
    rw [List.drop_eq_getElem_cons hj, hget] at hcut
    have hrev := congrArg List.reverse hcut
    rw [List.reverse_append, List.reverse_cons, List.append_assoc, List.reverse_reverse] at hrev
    exact hrev.symm
  rw [hsplit] at h
  obtain ⟨u', hupTo⟩ := h.suffix
  cases hrest : (bs.reverse.take j).reverse with
  | nil =>
    left
    rw [hrest] at hupTo
    have hlen := congrArg List.length hrest
    rw [List.length_reverse, List.length_take, List.length_nil] at hlen
    refine ⟨by omega, ?_⟩
    exact @ValidBranch.last cx [] b u' hupTo
  | cons parent rest =>
    right
    rw [hrest] at hupTo
    obtain ⟨u₀, clock, mtp, undo, htail, -, hvalid, -⟩ := hupTo.tail
    obtain ⟨coinbase, txs, hv⟩ := validateBlockCached_ok hvalid
    exact ⟨u₀, coinbase, txs, htail, hv, hheight⟩

theorem ValidBranch.origin_of_spends (h : ValidBranch cx bs u) (hb : bs.reverse[j]? = some b) {o : OutPoint}
    (ho : Spends b o) : ∃ k t, k < j ∧ Origin cx (bs.reverse.take j) o k t ∧
      (t.isCoinbase = true → k + coinbaseMaturity ≤ j) := by
  rcases ValidBranch.upTo h hb with ⟨-, rfl⟩ | ⟨u₀, coinbase, txs, hbranch, hv, hheight⟩
  · exact absurd ho (genesis_spends o)
  · obtain ⟨tx, htx, hconsumed⟩ := ho
    obtain ⟨c, hc, hmature⟩ := hv.consumed_present htx hconsumed
    obtain ⟨k, t, horigin, hk, hcoinbase⟩ := ValidBranch.origin hbranch hc
    rw [List.reverse_reverse] at horigin
    refine ⟨k, t, ?_, horigin, ?_⟩
    · obtain ⟨a, ha, -⟩ := horigin.block
      have := (List.getElem?_eq_some_iff.mp ha).1
      rw [List.length_take] at this
      omega
    · intro ht
      rw [← hk, ← hheight]
      exact hmature (hcoinbase.trans ht)

theorem ValidBranch.spendsOnce (h : ValidBranch cx bs u) : SpendsOnce cx bs.reverse := by
  refine ⟨?_, ?_, ?_⟩
  · intro j b hb tx htx hcb i hi
    apply ValidBranch.origin_of_spends h hb
    refine ⟨tx, htx, ?_⟩
    rw [consumed_of_not_coinbase hcb]
    exact List.mem_map_of_mem hi
  · intro j b hb
    rcases ValidBranch.upTo h hb with ⟨-, rfl⟩ | ⟨u₀, coinbase, txs, -, hv, -⟩
    · exact List.nodup_nil
    · rw [hv.consumed_eq]
      exact hv.nodup
  · intro i j a b o hij ha hb hspends hspends'
    obtain ⟨k, t, hk, horigin, -⟩ := ValidBranch.origin_of_spends h hb hspends'
    have hbefore : ∀ m, m < j → (bs.reverse.take j)[m]? = bs.reverse[m]? := by
      intro m hm
      rw [List.getElem?_take, if_pos hm]
    obtain ⟨x, hx, ht⟩ := horigin.block
    rw [hbefore k hk] at hx
    refine ⟨k, x, ?_, hk, hx, t, ht, horigin.created⟩
    by_contra hle
    exact horigin.unspent i a (by omega) (by rw [hbefore i hij]; exact ha) hspends

/-- Along the chain a run of successful calls ends on, nothing is spent twice, before it
exists or before it is mature. -/
theorem run_spends_once {s : NodeState} {calls : List Call} (hrun : Run cx s calls)
    (hok : ∀ c ∈ calls, ∃ x, c.result = .ok x) (hprune : cx.pruneDepth = none) (hcf : CollisionFree cx (Known cx calls))
    (hsame : ∀ c ∈ calls, ∀ c' ∈ calls, c.block.hash cx.sha256 = c'.block.hash cx.sha256 →
      c.block = c'.block) : ∃ chain, Consistent cx s chain ∧ SpendsOnce cx chain := by
  obtain ⟨bs, hbranch, hbs⟩ := run_consistent_branch hrun hok hprune hcf hsame
  exact ⟨bs.reverse, hbs, ValidBranch.spendsOnce hbranch⟩

/-- The last block spends an output of the block before it. -/
theorem switched_spends_once :
    ∃ s calls chain, Run scriptNode s calls ∧ Consistent scriptNode s chain ∧ SpendsOnce scriptNode chain ∧
      chain[2]? = some spendingTip ∧ giftSpend ∈ spendingTip.transactions ∧
      ∃ b, chain[1]? = some b ∧ b.hash scriptNode.sha256 = paidBranch.hash scriptNode.sha256 := by
  obtain ⟨s, calls, o, -, h⟩ := exists_switched
  obtain ⟨chain, hchain, hspends⟩ := run_spends_once h.fullRun (fun c hc => (h.calm c hc).result) rfl
    (Switched.collisionFree h) (Switched.same h)
  have htop : (chain[2]?).map (Block.hash scriptNode.sha256) = some (spendingTip.hash Sha256.sha256) := by
    rw [← hchain.entries 2, ← h.tip, ← hchain.tip, h.height]
  have hbelow : (chain[1]?).map (Block.hash scriptNode.sha256) = some (paidBranch.hash Sha256.sha256) := by
    rw [← hchain.entries 1]
    exact h.heightMap
  obtain ⟨b, hb, hhash⟩ := Option.map_eq_some_iff.mp htop
  obtain ⟨x, hx, -, hbody⟩ := hchain.found 2 b hb
  have hspending : x = spendingTip := by
    rw [hhash, h.stored] at hx
    exact (Option.some.inj hx).symm
  rw [← hbody (by decide), hspending] at hb
  refine ⟨_, _, chain, h.fullRun, hchain, hspends, hb, ?_, Option.map_eq_some_iff.mp hbelow⟩
  exact List.mem_cons_of_mem _ List.mem_cons_self

end Chains

end KuberCoin.Spending
