import KuberCoin.Sha256
import KuberCoin.UtxoSets

/-!
Undo and atomicity of the UTXO set (crate `chain`, `utxo`). A block is applied
transaction by transaction, and a transaction spends its inputs before it looks at its
outputs; whether a failing application leaves a trace is read off the block and the set
before it by counting how often each outpoint is created and spent.
-/
namespace KuberCoin.UtxoAtomicity

open Bytes Maps Transactions Blocks UtxoSets

variable (sha256 : Sha256)

section Writes

/-- An input names an entry that is not there. -/
def MissingInput (u : UtxoSet) (tx : Transaction) : Prop := ∃ o ∈ consumed tx, u.lookup o = none

/-- An output has no position in `u32`, or an entry is already where it goes. -/
def StaleOutput (u : UtxoSet) (tx : Transaction) : Prop :=
  2 ^ 32 < tx.outputs.length ∨ ∃ o ∈ created sha256 tx, u.lookup o ≠ none

variable {u : UtxoSet} {tx : Transaction} (height : ℕ)

theorem missing_isSome (h : MissingInput u tx) :
    ∃ o, (if tx.isCoinbase then none else firstMissing u tx.inputs) = some o := by
  obtain ⟨o, ho, hnone⟩ := h
  unfold consumed at ho
  split at ho
  · exact absurd ho List.not_mem_nil
  next hcoinbase =>
    rw [if_neg hcoinbase]
    apply Option.ne_none_iff_exists'.mp
    intro hall
    obtain ⟨c, hc⟩ := (firstMissing_eq_none_iff u tx.inputs).mp hall o ho
    rw [hnone] at hc
    cases hc

theorem missing_isNone (h : ¬ MissingInput u tx) :
    (if tx.isCoinbase then none else firstMissing u tx.inputs) = none := by
  split
  · rfl
  next hcoinbase =>
    refine (firstMissing_eq_none_iff u tx.inputs).mpr fun o ho => ?_
    apply Option.ne_none_iff_exists'.mp
    intro hnone
    exact h ⟨o, by unfold consumed; rwa [if_neg hcoinbase], hnone⟩

theorem present_of_not_missing (h : ¬ MissingInput u tx) : ∀ o ∈ consumed tx, ∃ c, u.lookup o = some c :=
  fun o ho => Option.ne_none_iff_exists'.mp fun hnone => h ⟨o, ho, hnone⟩

theorem checkFresh_of_stale (h : StaleOutput sha256 u tx) :
    ∃ e, checkFresh u (tx.txid sha256) 0 tx.outputs = .error e := by
  cases hcheck : checkFresh u (tx.txid sha256) 0 tx.outputs with
  | error e => exact ⟨e, rfl⟩
  | ok _ =>
    have hfit := checkFresh_ok_length (tx.txid sha256) u (Nat.zero_le _) hcheck
    have hfresh := (checkFresh_eq_ok_iff (tx.txid sha256) 0 tx.isCoinbase u hfit).mp hcheck
    obtain hmany | ⟨o, ho, hsome⟩ := h
    · omega
    · exact absurd (hfresh o ho) hsome

/-- Nothing is written before the inputs are found. -/
theorem apply_of_missing (h : MissingInput u tx) :
    ∃ e, applyTransactionWithUndo sha256 u tx height = (.error e, u) := by
  obtain ⟨o, ho⟩ := missing_isSome h
  exact ⟨.missingInput o, by simp only [applyTransactionWithUndo, ho]⟩

theorem apply_of_stale (hpresent : ¬ MissingInput u tx) (hstale : StaleOutput sha256 (eraseAll u (consumed tx)) tx) :
    ∃ e, applyTransactionWithUndo sha256 u tx height = (.error e, eraseAll u (consumed tx)) := by
  have hset : (if tx.isCoinbase then (([] : List (OutPoint × UTXO)), u)
      else spendInputs u tx.inputs).2 = eraseAll u (consumed tx) := by
    unfold consumed
    split
    · rfl
    · exact spendInputs_set u tx.inputs
  obtain ⟨e, he⟩ := checkFresh_of_stale sha256 hstale
  exact ⟨e, by simp only [applyTransactionWithUndo, missing_isNone hpresent, hset, he]⟩

theorem apply_of_fresh (hpresent : ¬ MissingInput u tx) (hfresh : ¬ StaleOutput sha256 (eraseAll u (consumed tx)) tx) :
    ∃ undo, applyTransactionWithUndo sha256 u tx height =
      (.ok undo, insertAll (eraseAll u (consumed tx)) (coinsOf sha256 tx height)) := by
  unfold StaleOutput at hfresh
  rw [not_or] at hfresh
  have hnew : ∀ o ∈ created sha256 tx, (eraseAll u (consumed tx)).lookup o = none :=
    fun o ho => not_not.mp fun hne => hfresh.2 ⟨o, ho, hne⟩
  obtain ⟨undo, u', hok⟩ : ∃ undo u', applyTransactionWithUndo sha256 u tx height = (.ok undo, u') :=
    applyTransactionWithUndo_of_fresh sha256 (present_of_not_missing hpresent) (by omega) hnew
  exact ⟨undo, by rw [hok, (applyTransactionWithUndo_ok sha256 hok).set]⟩

end Writes

section Rollback

/-- `disconnect_block` with the result it returns. -/
def disconnectBlockResult (u : UtxoSet) (undo : BlockUndoData) : Except ChainError Unit × UtxoSet :=
  (.ok (), disconnectBlock u undo)

/-- Undo data rolls its block back, whatever the block spends inside itself. -/
theorem undo_inverts_apply (u u' : UtxoSet) (b : Block) (undo : BlockUndoData)
    (h : applyBlockWithUndo sha256 u b = (.ok undo, u')) : disconnectBlockResult u' undo = (.ok (), u) := by
  unfold disconnectBlockResult
  rw [disconnectBlock_applyBlockWithUndo sha256 h]

/-- A coinbase with one output. -/
def reward : Transaction :=
  { version := 1
    inputs := [⟨OutPoint.null, [], 0xffffffff, Witness.empty⟩]
    outputs := [⟨5000000000, [0x51]⟩]
    lockTime := 0 }

/-- Spends the first output of a transaction, and names it twice. -/
def spendTwice (tx : Transaction) : Transaction :=
  { version := 2
    inputs := List.replicate 2 ⟨⟨tx.txid sha256, 0⟩, [], 0xffffffff, Witness.empty⟩
    outputs := [⟨4999990000, [0x52]⟩, ⟨10000, [0x53]⟩]
    lockTime := 0 }

def blockOf (height : ℕ) (txs : List Transaction) : Block :=
  { header := ⟨1, Bytes32.zero, Bytes32.zero, 1706900000, 0x207fffff, 0, height⟩
    transactions := txs }

theorem reward_applies (u : UtxoSet) (height : ℕ) (h : u.lookup ⟨reward.txid sha256, 0⟩ = none) :
    ∃ undo, applyTransactionWithUndo sha256 u reward height =
      (.ok undo, u.insert ⟨reward.txid sha256, 0⟩ ⟨⟨5000000000, [0x51]⟩, height, true⟩) := by
  have hpresent : ¬ MissingInput u reward := by
    rintro ⟨o, ho, -⟩
    exact absurd ho List.not_mem_nil
  have hfresh : ¬ StaleOutput sha256 (eraseAll u (consumed reward)) reward := by
    rintro (hmany | ⟨o, ho, hne⟩)
    · exact absurd hmany (by decide)
    · obtain rfl := List.mem_singleton.mp ho
      exact hne h
  exact apply_of_fresh sha256 height hpresent hfresh

theorem chained_block_applies (height : ℕ) :
    ∃ undo u', applyBlockWithUndo sha256 ∅ (blockOf height [reward, spendTwice sha256 reward]) =
      (.ok undo, u') := by
  set o : OutPoint := ⟨reward.txid sha256, 0⟩ with ho
  obtain ⟨undo, hreward⟩ := reward_applies sha256 ∅ height (Finmap.lookup_empty _)
  rw [← ho] at hreward
  set u : UtxoSet := Finmap.insert o ⟨⟨5000000000, [0x51]⟩, height, true⟩ ∅ with hu
  have hconsumed : consumed (spendTwice sha256 reward) = [o, o] := rfl
  have hpresent : ¬ MissingInput u (spendTwice sha256 reward) := by
    rintro ⟨k, hk, hnone⟩
    obtain rfl : k = o := by simpa [hconsumed] using hk
    rw [hu, lookup_insert_eq, if_pos rfl] at hnone
    cases hnone
  have hfresh : ¬ StaleOutput sha256 (eraseAll u (consumed (spendTwice sha256 reward)))
      (spendTwice sha256 reward) := by
    rintro (hmany | ⟨k, -, hne⟩)
    · change 2 ^ 32 < 2 at hmany
      omega
    · rw [lookup_eraseAll, hconsumed, hu, lookup_insert_eq, Finmap.lookup_empty] at hne
      split_ifs at hne <;> simp_all
  obtain ⟨undo', hspend⟩ := apply_of_fresh sha256 height hpresent hfresh
  refine ⟨⟨[undo, undo']⟩,
    insertAll (eraseAll u (consumed (spendTwice sha256 reward)))
      (coinsOf sha256 (spendTwice sha256 reward) height), ?_⟩
  simp only [applyBlockWithUndo, blockOf, applyTransactionsWithUndo, hreward, hspend]

theorem chained_block_undone : ∃ undo u', applyBlockWithUndo Sha256.sha256 ∅
        (blockOf 1 [reward, spendTwice Sha256.sha256 reward]) = (.ok undo, u') ∧
      disconnectBlockResult u' undo = (.ok (), ∅) := by
  obtain ⟨undo, u', happly⟩ := chained_block_applies Sha256.sha256 1
  exact ⟨undo, u', happly, undo_inverts_apply Sha256.sha256 ∅ u' _ undo happly⟩

end Rollback

section Counts

variable (u : UtxoSet) (height : ℕ) {gone : List OutPoint} {txs : List Transaction} {e : ChainError} {u' : UtxoSet}

/-- One where the set holds the outpoint. -/
def held (o : OutPoint) : ℕ := if (u.lookup o).isSome then 1 else 0

/-- How many of the transactions spend an outpoint, be it with several inputs. -/
def spendings (txs : List Transaction) (o : OutPoint) : ℕ := txs.countP fun tx => o ∈ consumed tx

def creations (txs : List Transaction) (o : OutPoint) : ℕ :=
  txs.countP fun tx => o ∈ created sha256 tx

/-- The coin that the last of the transactions to create an outpoint gives it. -/
def lastCoin (txs : List Transaction) (o : OutPoint) : Option UTXO :=
  (txs.flatMap fun tx => coinsOf sha256 tx height).reverse.lookup o

/-- Behind the transactions `before`, an input of `tx` has been spent as often as it was there. -/
def Lacks (before : List Transaction) (tx : Transaction) : Prop :=
  ∃ o ∈ consumed tx, held u o + creations sha256 before o ≤ spendings before o

/-- An output of `tx` goes where something is left unspent, or has no position in `u32`. -/
def Collides (before : List Transaction) (tx : Transaction) : Prop :=
  2 ^ 32 < tx.outputs.length ∨
    ∃ o ∈ created sha256 tx, spendings (before ++ [tx]) o < held u o + creations sha256 before o

/-- Every outpoint is created as often as it is spent, and one that the set holds is created
again as it was. -/
structure Evens (made spent : List Transaction) : Prop where
  counts : ∀ o, creations sha256 made o = spendings spent o
  coins : ∀ o c c', u.lookup o = some c → lastCoin sha256 height made o = some c' → c' = c

/-- At the first transaction of the block that lacks an input or collides, the creations and
spendings so far even out; a transaction that collides has spent its inputs. -/
def StopsCleanly (b : Block) : Prop :=
  ∀ before tx after, b.transactions = before ++ tx :: after →
    (∀ front t back, before = front ++ t :: back →
      ¬ Lacks sha256 u front t ∧ ¬ Collides sha256 u front t) →
    (Lacks sha256 u before tx → Evens sha256 u b.header.height before before) ∧
      (¬ Lacks sha256 u before tx → Collides sha256 u before tx →
        Evens sha256 u b.header.height before (before ++ [tx]))

/-- What is there is what was there and was created, less what was spent. -/
structure Ledger (before : List Transaction) (v : UtxoSet) : Prop where
  balance : ∀ o, held v o + spendings before o = held u o + creations sha256 before o
  coin : ∀ o c, v.lookup o = some c →
    (lastCoin sha256 height before o).or (u.lookup o) = some c

/-- The transactions `before` lead from `u` to `v`. -/
inductive Ran : List Transaction → UtxoSet → Prop
  | nil : Ran [] u
  | snoc {before v tx undo v'} (h : Ran before v)
      (htx : applyTransactionWithUndo sha256 v tx height = (.ok undo, v')) :
      Ran (before ++ [tx]) v'

variable {u height} {before : List Transaction} {v : UtxoSet} {tx : Transaction}

theorem spendings_snoc (before : List Transaction) (tx : Transaction) (o : OutPoint) :
    spendings (before ++ [tx]) o = spendings before o + if o ∈ consumed tx then 1 else 0 := by
  simp [spendings, List.countP_append, List.countP_singleton]

theorem creations_snoc (before : List Transaction) (tx : Transaction) (o : OutPoint) :
    creations sha256 (before ++ [tx]) o =
      creations sha256 before o + if o ∈ created sha256 tx then 1 else 0 := by
  simp [creations, List.countP_append, List.countP_singleton]

theorem lookup_insertAll (m : UtxoSet) (kvs : List (OutPoint × UTXO)) (o : OutPoint) :
    (insertAll m kvs).lookup o = (kvs.reverse.lookup o).or (m.lookup o) := by
  induction kvs generalizing m with
  | nil => rfl
  | cons kv kvs ih =>
    change (insertAll (m.insert kv.1 kv.2) kvs).lookup o = _
    rw [ih, lookup_insert_eq, List.reverse_cons, List.lookup_append, List.lookup_cons]
    by_cases h : o = kv.1 <;> simp [h, beq_eq_false_iff_ne.mpr]

theorem held_pos_iff (v : UtxoSet) (o : OutPoint) : 0 < held v o ↔ v.lookup o ≠ none := by
  cases h : v.lookup o <;> simp [held, h]

theorem held_eraseAll (h : ∀ o ∈ gone, v.lookup o ≠ none) (o : OutPoint) :
    held (eraseAll v gone) o + (if o ∈ gone then 1 else 0) = held v o := by
  by_cases ho : o ∈ gone
  · simp [held, lookup_eraseAll, ho, Option.isSome_iff_ne_none.mpr (h o ho)]
  · simp [held, lookup_eraseAll, ho]

theorem held_insertAll {coins : List (OutPoint × UTXO)} (h : ∀ o ∈ coins.map Prod.fst, v.lookup o = none)
    (o : OutPoint) : held (insertAll v coins) o = held v o + if o ∈ coins.map Prod.fst then 1 else 0 := by
  by_cases ho : o ∈ coins.map Prod.fst
  · have hsome : (coins.reverse.lookup o).isSome := by
      obtain ⟨kv, hkv, rfl⟩ := List.mem_map.mp ho
      exact List.lookup_isSome_iff.mpr ⟨kv, List.mem_reverse.mpr hkv, beq_self_eq_true _⟩
    simp [held, lookup_insertAll, h o ho, hsome, ho]
  · rw [if_neg ho, held, lookup_insertAll_of_notMem v coins o ho, held, Nat.add_zero]

theorem Ledger.snoc {undo : TxUndoData} {v' : UtxoSet} (h : Ledger sha256 u height before v)
    (htx : Applied sha256 height v tx undo v') : Ledger sha256 u height (before ++ [tx]) v' where
  balance o := by
    have hspent := held_eraseAll (fun a ha => Option.ne_none_iff_exists'.mpr (htx.present a ha)) o
    have hfresh : ∀ a ∈ (coinsOf sha256 tx height).map Prod.fst, (eraseAll v (consumed tx)).lookup a = none := by
      rw [coinsOf_keys]
      exact htx.fresh
    have hmade := held_insertAll hfresh o
    have hbefore := h.balance o
    rw [coinsOf_keys] at hmade
    rw [htx.set, hmade, spendings_snoc, creations_snoc]
    omega
  coin o c hc := by
    rw [htx.set, lookup_insertAll, lookup_eraseAll] at hc
    simp only [lastCoin, List.flatMap_append, List.flatMap_cons, List.flatMap_nil, List.append_nil,
      List.reverse_append, List.lookup_append]
    cases hlast : (coinsOf sha256 tx height).reverse.lookup o with
    | some c' => simpa [hlast] using hc
    | none =>
      rw [hlast, Option.none_or] at hc
      rw [Option.none_or]
      split at hc
      · cases hc
      · exact h.coin o c hc

theorem Ran.ledger (h : Ran sha256 u height before v) : Ledger sha256 u height before v := by
  induction h with
  | nil => exact ⟨fun o => rfl, fun o c hc => hc⟩
  | snoc h htx ih => exact ih.snoc sha256 (applyTransactionWithUndo_ok sha256 htx)

theorem Ledger.lacks_iff (h : Ledger sha256 u height before v) : Lacks sha256 u before tx ↔ MissingInput v tx := by
  refine exists_congr fun o => and_congr_right fun ho => ?_
  have hbalance := h.balance o
  have hpos := held_pos_iff v o
  rw [← not_iff_not, ← ne_eq (v.lookup o), ← hpos]
  omega

theorem Ledger.collides_iff (h : Ledger sha256 u height before v) (hpresent : ¬ MissingInput v tx) :
    Collides sha256 u before tx ↔ StaleOutput sha256 (eraseAll v (consumed tx)) tx := by
  refine or_congr Iff.rfl (exists_congr fun o => and_congr_right fun ho => ?_)
  have hbalance := h.balance o
  have hspent := held_eraseAll (fun a ha hnone => hpresent ⟨a, ha, hnone⟩) o
  rw [spendings_snoc, ← held_pos_iff]
  omega

theorem Ledger.eraseAll_eq_iff (h : Ledger sha256 u height before v) {spent : List Transaction}
    (hgone : ∀ o ∈ gone, v.lookup o ≠ none)
    (hspent : ∀ o, spendings spent o = spendings before o + if o ∈ gone then 1 else 0) :
    eraseAll v gone = u ↔ Evens sha256 u height before spent := by
  constructor
  · intro hsame
    refine ⟨fun o => ?_, fun o c c' hc hlast => ?_⟩
    · have hheld := held_eraseAll hgone o
      have hbalance := h.balance o
      rw [hsame] at hheld
      rw [hspent]
      omega
    · have hv : v.lookup o = some c := by
        rw [← hsame, lookup_eraseAll] at hc
        split at hc
        · cases hc
        · exact hc
      have hcoin := h.coin o c hv
      rw [hlast, Option.some_or] at hcoin
      exact Option.some.inj hcoin
  · intro heven
    apply Finmap.ext_lookup
    intro o
    have hheld : held (eraseAll v gone) o = held u o := by
      have := held_eraseAll hgone o
      have := h.balance o
      have := heven.counts o
      rw [hspent] at this
      omega
    have hiff := (held_pos_iff (eraseAll v gone) o).symm.trans (hheld ▸ held_pos_iff u o)
    cases hu : u.lookup o with
    | none => exact not_not.mp fun hne => hiff.mp hne hu
    | some c₀ =>
      obtain ⟨c, hc⟩ := Option.ne_none_iff_exists'.mp (hiff.mpr (by simp [hu]))
      have hv : v.lookup o = some c := by
        rw [lookup_eraseAll] at hc
        split at hc
        · cases hc
        · exact hc
      have hcoin := h.coin o c hv
      rw [hu] at hcoin
      rw [hc]
      cases hlast : lastCoin sha256 height before o with
      | none => rw [← hcoin, hlast, Option.none_or]
      | some c' =>
        rw [hlast, Option.some_or] at hcoin
        rw [← hcoin, heven.coins o c₀ c' hu hlast]

theorem Ran.fails (h : Ran sha256 u height before v)
    (hfail : applyTransactionsWithUndo sha256 height v txs = (.error e, u')) :
    ∃ front tx back w, before ++ txs = front ++ tx :: back ∧ Ran sha256 u height front w ∧
      applyTransactionWithUndo sha256 w tx height = (.error e, u') := by
  induction txs generalizing before v with
  | nil => simp [applyTransactionsWithUndo] at hfail
  | cons tx rest ih =>
    cases htx : applyTransactionWithUndo sha256 v tx height with
    | mk r v' =>
      cases r with
      | error e' =>
        simp only [applyTransactionsWithUndo, htx, Prod.mk.injEq, Except.error.injEq] at hfail
        obtain ⟨rfl, rfl⟩ := hfail
        exact ⟨before, tx, rest, v, rfl, h, htx⟩
      | ok undo =>
        have hrest : applyTransactionsWithUndo sha256 height v' rest = (.error e, u') := by
          simp only [applyTransactionsWithUndo, htx] at hfail
          cases hrec : applyTransactionsWithUndo sha256 height v' rest with
          | mk r w => cases r <;> simp_all
        simpa using ih (h.snoc htx) hrest

theorem Ran.error (h : Ran sha256 u height before v)
    (hfail : applyTransactionsWithUndo sha256 height v txs = (.error e, u')) :
    applyTransactionsWithUndo sha256 height u (before ++ txs) = (.error e, u') := by
  induction h generalizing txs with
  | nil => exact hfail
  | @snoc before v tx undo v' h htx ih =>
    rw [List.append_assoc]
    exact ih (by simp only [List.singleton_append, applyTransactionsWithUndo, htx, hfail])

theorem Ran.applies (h : Ran sha256 u height before v) : ∀ front t back, before = front ++ t :: back →
      ¬ Lacks sha256 u front t ∧ ¬ Collides sha256 u front t := by
  induction h with
  | nil => simp
  | @snoc before v tx undo v' h htx ih =>
    intro front t back heq
    obtain rfl | ⟨init, last, rfl⟩ := List.eq_nil_or_concat back
    · obtain ⟨rfl, hlast⟩ := List.append_inj' heq rfl
      obtain rfl := List.singleton_injective hlast
      have hledger := h.ledger
      have happlied := applyTransactionWithUndo_ok sha256 htx
      have hpresent : ¬ MissingInput v tx := by
        rintro ⟨o, ho, hnone⟩
        obtain ⟨c, hc⟩ := happlied.present o ho
        rw [hnone] at hc
        cases hc
      refine ⟨mt hledger.lacks_iff.mp hpresent, mt (hledger.collides_iff sha256 hpresent).mp ?_⟩
      rintro (hmany | ⟨o, ho, hne⟩)
      · exact absurd happlied.few (by omega)
      · exact hne (happlied.fresh o ho)
    · refine ih front t init ?_
      have hsplit : before ++ [tx] = (front ++ t :: init) ++ [last] := by simpa using heq
      exact (List.append_inj' hsplit rfl).1

theorem ran_of_applies (height : ℕ) (h : ∀ front t back, before = front ++ t :: back →
      ¬ Lacks sha256 u front t ∧ ¬ Collides sha256 u front t) : ∃ v, Ran sha256 u height before v := by
  induction before using List.reverseRecOn with
  | nil => exact ⟨u, .nil⟩
  | append_singleton before tx ih =>
    obtain ⟨v, hran⟩ := ih fun front t back heq => h front t (back ++ [tx]) (by simp [heq])
    obtain ⟨hlacks, hcollides⟩ := h before tx [] rfl
    have hpresent := mt (hran.ledger sha256).lacks_iff.mpr hlacks
    obtain ⟨undo, htx⟩ := apply_of_fresh sha256 height hpresent
      (mt ((hran.ledger sha256).collides_iff sha256 hpresent).mpr hcollides)
    exact ⟨_, hran.snoc htx⟩

end Counts

section Atomicity

variable (u : UtxoSet)

/-- A transaction has no effect when it fails: it finds an input missing, it spends
nothing, or it does not fail. -/
def FailsCleanly (tx : Transaction) : Prop :=
  MissingInput u tx ∨ consumed tx = [] ∨ ¬ StaleOutput sha256 (eraseAll u (consumed tx)) tx

theorem Ran.atomic_iff {height : ℕ} {before : List Transaction} {v : UtxoSet} {tx : Transaction}
    (h : Ran sha256 u height before v) :
    (∀ e u', applyTransactionWithUndo sha256 v tx height = (.error e, u') → u' = u) ↔
      (Lacks sha256 u before tx → Evens sha256 u height before before) ∧
        (¬ Lacks sha256 u before tx → Collides sha256 u before tx →
          Evens sha256 u height before (before ++ [tx])) := by
  have hledger := h.ledger
  by_cases hpresent : MissingInput v tx
  · have hlacks := hledger.lacks_iff.mpr hpresent
    obtain ⟨e, he⟩ := apply_of_missing sha256 height hpresent
    have heven : v = u ↔ Evens sha256 u height before before := hledger.eraseAll_eq_iff sha256
      (fun o ho => absurd ho List.not_mem_nil) (fun o => by simp)
    simp only [he, hlacks, not_true_eq_false, false_implies, and_true, true_implies, ← heven]
    exact ⟨fun hsame => hsame e v rfl, fun hsame e' u' heq => (congrArg Prod.snd heq).symm.trans hsame⟩
  · have hlacks := mt hledger.lacks_iff.mp hpresent
    have hcollides := hledger.collides_iff sha256 hpresent
    have heven : eraseAll v (consumed tx) = u ↔ Evens sha256 u height before (before ++ [tx]) :=
      hledger.eraseAll_eq_iff sha256 (fun o ho hnone => hpresent ⟨o, ho, hnone⟩) (spendings_snoc before tx)
    simp only [hlacks, false_implies, not_false_eq_true, true_implies, true_and, hcollides, ← heven]
    by_cases hstale : StaleOutput sha256 (eraseAll v (consumed tx)) tx
    · obtain ⟨e, he⟩ := apply_of_stale sha256 height hpresent hstale
      simp only [he, hstale, true_implies]
      exact ⟨fun hsame => hsame e _ rfl, fun hsame e' u' heq => (congrArg Prod.snd heq).symm.trans hsame⟩
    · obtain ⟨undo, hok⟩ := apply_of_fresh sha256 height hpresent hstale
      simp [hok, hstale]

theorem applyBlockWithUndo_atomic_iff (b : Block) :
    (∀ e u', applyBlockWithUndo sha256 u b = (.error e, u') → u' = u) ↔ StopsCleanly sha256 u b := by
  have herror : ∀ e u', applyBlockWithUndo sha256 u b = (.error e, u') ↔
      applyTransactionsWithUndo sha256 b.header.height u b.transactions = (.error e, u') := by
    intro e u'
    unfold applyBlockWithUndo
    cases applyTransactionsWithUndo sha256 b.header.height u b.transactions with
    | mk r v => cases r <;> simp
  simp only [herror]
  constructor
  · intro h before tx after hb happlies
    obtain ⟨v, hran⟩ := ran_of_applies sha256 b.header.height happlies
    refine (hran.atomic_iff sha256 u).mp fun e u' htx => h e u' ?_
    rw [hb]
    exact hran.error sha256 (by simp only [applyTransactionsWithUndo, htx])
  · intro h e u' hfail
    obtain ⟨before, tx, after, v, hb, hran, htx⟩ := Ran.fails sha256 .nil hfail
    exact (hran.atomic_iff sha256 u).mpr (h before tx after hb (hran.applies sha256)) e u' htx

theorem applyTransactionWithUndo_atomic_iff (tx : Transaction) (height : ℕ) :
    (∀ e u', applyTransactionWithUndo sha256 u tx height = (.error e, u') → u' = u) ↔
      FailsCleanly sha256 u tx := by
  by_cases hpresent : MissingInput u tx
  · refine iff_of_true (fun e u' happly => ?_) (.inl hpresent)
    obtain ⟨e', he⟩ := apply_of_missing sha256 height hpresent
    rw [he] at happly
    exact (congrArg Prod.snd happly).symm
  · by_cases hstale : StaleOutput sha256 (eraseAll u (consumed tx)) tx
    · obtain ⟨e, he⟩ := apply_of_stale sha256 height hpresent hstale
      unfold FailsCleanly
      simp only [hpresent, hstale, not_true_eq_false, false_or, or_false, he, Prod.mk.injEq]
      constructor
      · intro h
        have hsame := h e _ ⟨rfl, rfl⟩
        apply List.eq_nil_iff_forall_not_mem.mpr
        intro o ho
        have hlook := lookup_eraseAll u (consumed tx) o
        rw [hsame, if_pos ho] at hlook
        exact hpresent ⟨o, ho, hlook⟩
      · rintro hnil e' u' ⟨-, rfl⟩
        rw [hnil]
        rfl
    · obtain ⟨undo, hok⟩ := apply_of_fresh sha256 height hpresent hstale
      refine iff_of_true (fun e u' happly => ?_) (.inr (.inr hstale))
      rw [hok] at happly
      simp at happly

theorem error_map_iff {α : Type} {r : Except ChainError α} {v u' : UtxoSet} {e : ChainError} :
    ((r.map fun _ => (), v) : Except ChainError Unit × UtxoSet) = (.error e, u') ↔
      (r, v) = (.error e, u') := by
  cases r <;> simp [Except.map]

/-- A failing application leaves the set as it was exactly where the transactions applied until
then even out. -/
theorem application_atomic_iff : (∀ tx height, (∀ e u', applyTransaction sha256 u tx height = (.error e, u') → u' = u) ↔
      FailsCleanly sha256 u tx) ∧
    ∀ b, ((∀ e u', applyBlock sha256 u b = (.error e, u') → u' = u) ↔ StopsCleanly sha256 u b) ∧
      ((∀ e u', applyBlockWithUndo sha256 u b = (.error e, u') → u' = u) ↔
        StopsCleanly sha256 u b) := by
  refine ⟨fun tx height => ?_, fun b => ⟨?_, applyBlockWithUndo_atomic_iff sha256 u b⟩⟩
  · simp only [applyTransaction_eq, error_map_iff]
    exact applyTransactionWithUndo_atomic_iff sha256 u tx height
  · simp only [applyBlock_eq, error_map_iff]
    exact applyBlockWithUndo_atomic_iff sha256 u b

/-- Spends an output of nobody. -/
def strayTransaction : Transaction :=
  { version := 2
    inputs := [⟨⟨Bytes32.zero, 7⟩, [], 0xffffffff, Witness.empty⟩]
    outputs := [⟨10000, [0x51]⟩]
    lockTime := 0 }

theorem stray_block_stops (height : ℕ) : ∃ e, applyBlock sha256 ∅ (blockOf height [reward, strayTransaction]) =
      (.error e, Finmap.insert ⟨reward.txid sha256, 0⟩ ⟨⟨5000000000, [0x51]⟩, height, true⟩ ∅) := by
  obtain ⟨undo, hreward⟩ := reward_applies sha256 ∅ height (Finmap.lookup_empty _)
  set u : UtxoSet :=
    Finmap.insert ⟨reward.txid sha256, 0⟩ ⟨⟨5000000000, [0x51]⟩, height, true⟩ ∅ with hu
  have hmissing : MissingInput u strayTransaction := by
    refine ⟨⟨Bytes32.zero, 7⟩, List.mem_singleton.mpr rfl, ?_⟩
    rw [hu, lookup_insert_eq, Finmap.lookup_empty, if_neg]
    intro h
    have hvout : (7 : UInt32) = 0 := congrArg OutPoint.vout h
    exact absurd hvout (by decide)
  obtain ⟨e, he⟩ := apply_of_missing sha256 height hmissing
  refine ⟨e, ?_⟩
  rw [applyBlock_eq]
  simp only [applyBlockWithUndo, blockOf, applyTransactionsWithUndo, hreward, he, Except.map]

/-- The output of the first transaction stays when the second one names no entry. -/
theorem stray_block_leaves_trace : ¬ ∀ (u : UtxoSet) (b : Block) (e : ChainError) (u' : UtxoSet),
      applyBlock Sha256.sha256 u b = (.error e, u') → u' = u := by
  intro h
  obtain ⟨e, he⟩ := stray_block_stops Sha256.sha256 1
  have hlook := congrArg (fun u : UtxoSet => u.lookup ⟨reward.txid Sha256.sha256, 0⟩) (h ∅ _ e _ he)
  simp only [lookup_insert_eq, Finmap.lookup_empty] at hlook
  simp at hlook

end Atomicity

end KuberCoin.UtxoAtomicity
