import KuberCoin.Relays
import KuberCoin.TemplateOrders

/-!
The `depends` lists of a block template. They hold positions in the selection of the pool; what
the consensus checks drop is taken out afterwards, and the positions are not counted again.
-/
namespace KuberCoin.TemplateDepends

open Bytes Maps Transactions UtxoSets Validator NodeStates NodeStates.NodeState Mempools Mempool Templates
  TemplateOrders PoolAccounting

section Keeping

variable {α : Type} {i j : ℕ} {flags : List Bool}

/-- The elements of a list whose flag is set. -/
def kept : List Bool → List α → List α
  | true :: flags, a :: l => a :: kept flags l
  | false :: flags, _ :: l => kept flags l
  | [], _ => []
  | _, [] => []

/-- The number of flags set before a position: where its element goes. -/
def place (flags : List Bool) (i : ℕ) : ℕ := (flags.take i).count true

theorem place_le (flags : List Bool) (i : ℕ) : place flags i ≤ i :=
  List.count_le_length.trans (List.length_take_le i flags)

theorem place_mono (flags : List Bool) (h : i ≤ j) : place flags i ≤ place flags j :=
  (List.take_sublist_take_left h).count_le true

theorem place_succ (h : flags[i]? = some true) : place flags (i + 1) = place flags i + 1 := by
  rw [place, List.take_add_one, h, List.count_append]
  rfl

theorem place_lt (hi : flags[i]? = some true) (h : i < j) : place flags i < place flags j := by
  have hnext := place_mono flags (Nat.succ_le_of_lt h)
  rw [Nat.succ_eq_add_one, place_succ hi] at hnext
  omega

/-- Nothing moves exactly where nothing is taken out before. -/
theorem place_eq_self (hi : i ≤ flags.length) : place flags i = i ↔ ∀ k < i, flags[k]? = some true := by
  have hlength : (flags.take i).length = i := List.length_take_of_le hi
  rw [place]
  constructor
  · intro hcount k hk
    have hall : ∀ b ∈ flags.take i, true = b := List.count_eq_length.mp (hcount.trans hlength.symm)
    have hin : k < (flags.take i).length := by omega
    have hbit := hall _ (List.getElem_mem hin)
    rw [List.getElem_take] at hbit
    rw [List.getElem?_eq_getElem (by omega), ← hbit]
  · intro hset
    refine Eq.trans (List.count_eq_length.mpr fun b hb => ?_) hlength
    obtain ⟨k, hk, rfl⟩ := List.mem_iff_getElem.mp hb
    have hbit := hset k (by omega)
    rw [List.getElem?_eq_getElem (by omega)] at hbit
    rw [List.getElem_take]
    exact (Option.some.inj hbit).symm

theorem getElem?_kept {l : List α} {p : ℕ} {a : α} :
    (kept flags l)[p]? = some a ↔ ∃ i, flags[i]? = some true ∧ l[i]? = some a ∧ place flags i = p := by
  induction l generalizing flags p with
  | nil =>
    cases flags with
    | nil => simp [kept]
    | cons flag flags => cases flag <;> simp [kept]
  | cons x l ih =>
    cases flags with
    | nil => simp [kept]
    | cons flag flags =>
      have hshift : ∀ i, place (flag :: flags) (i + 1) = place flags i + (if flag = true then 1 else 0) := by
        intro i
        rw [place, List.take_succ_cons, List.count_cons, place]
        simp
      cases flag with
      | false =>
        rw [kept, ih]
        constructor
        · rintro ⟨i, hi, ha, hp⟩
          exact ⟨i + 1, hi, ha, by rw [hshift]; exact hp⟩
        · rintro ⟨i, hi, ha, hp⟩
          cases i with
          | zero => simp at hi
          | succ i => exact ⟨i, hi, ha, by rw [← hp, hshift]; rfl⟩
      | true =>
        rw [kept]
        cases p with
        | zero =>
          constructor
          · intro ha
            exact ⟨0, rfl, ha, rfl⟩
          · rintro ⟨i, hi, ha, hp⟩
            cases i with
            | zero => exact ha
            | succ i =>
              rw [hshift] at hp
              simp at hp
        | succ p =>
          rw [List.getElem?_cons_succ, ih]
          constructor
          · rintro ⟨i, hi, ha, hp⟩
            exact ⟨i + 1, hi, ha, by rw [hshift, hp]; rfl⟩
          · rintro ⟨i, hi, ha, hp⟩
            cases i with
            | zero => simp [place] at hp
            | succ i =>
              rw [hshift] at hp
              exact ⟨i, hi, ha, by simpa using hp⟩

end Keeping

section Depending

variable (spends : ℕ → ℕ → Prop) (flags : List Bool)

/-- What the list of an element is to hold: the places of the kept elements it needs. -/
def Needed (i p : ℕ) : Prop := ∃ j, flags[j]? = some true ∧ spends i j ∧ place flags j = p

/-- What it does hold: the positions of the elements it needs, itself and those before it. -/
def Listed (i p : ℕ) : Prop := p ≤ i ∧ spends i p

variable {spends flags}

/-- The two agree, with earlier places only, exactly when nothing is taken out up to an element
that is needed, and nothing needed stands at the element or behind it. -/
theorem listed_iff_needed {i : ℕ} (hi : flags[i]? = some true) :
    ((∀ p, Listed spends i p ↔ Needed spends flags i p) ∧ ∀ p, Listed spends i p → p < place flags i) ↔
      (∀ j < i, spends i j → ∀ k ≤ j, flags[k]? = some true) ∧
        ∀ j, i ≤ j → spends i j → flags[j]? ≠ some true := by
  have hlength : i < flags.length := (List.getElem?_eq_some_iff.mp hi).1
  constructor
  · rintro ⟨hagree, hearlier⟩
    have hbehind : ∀ j, i ≤ j → spends i j → flags[j]? ≠ some true := by
      intro j hij hspends hj
      have hlisted := (hagree (place flags j)).mpr ⟨j, hj, hspends, rfl⟩
      have hlt := hearlier _ hlisted
      have hle := place_mono flags hij
      omega
    -- from the last position down: the element placed at `j` stands at `j` itself
    have hfixed : ∀ d j, j + d = i → spends i j → flags[j]? = some true ∧ place flags j = j := by
      intro d
      induction d using Nat.strong_induction_on with
      | _ d ih =>
        intro j hd hspends
        obtain ⟨j', hj', hspends', hplace⟩ := (hagree j).mp ⟨by omega, hspends⟩
        have hle := place_le flags j'
        have hbefore : j' < i := by
          by_contra hnot
          exact hbehind j' (by omega) hspends' hj'
        by_cases hsame : j' = j
        · rw [hsame] at hj' hplace
          exact ⟨hj', hplace⟩
        · have hlater := (ih (i - j') (by omega) j' (by omega) hspends').2
          omega
    refine ⟨fun j hj hspends k hk => ?_, hbehind⟩
    obtain ⟨hkept, hplace⟩ := hfixed (i - j) j (by omega) hspends
    by_cases hkj : k = j
    · rw [hkj]
      exact hkept
    · exact (place_eq_self (by omega)).mp hplace k (by omega)
  · rintro ⟨hbefore, hbehind⟩
    have hfixed : ∀ j < i, spends i j → place flags j = j := fun j hj hspends =>
      (place_eq_self (by omega)).mpr fun k hk => hbefore j hj hspends k (by omega)
    have hstrict : ∀ p, Listed spends i p → p < i := by
      intro p hp
      by_contra hnot
      have heq : p = i := Nat.le_antisymm hp.1 (by omega)
      exact hbehind p (by omega) hp.2 (heq ▸ hi)
    refine ⟨fun p => ⟨fun hp => ?_, ?_⟩, fun p hp => ?_⟩
    · exact ⟨p, hbefore p (hstrict p hp) hp.2 p le_rfl, hp.2, hfixed p (hstrict p hp) hp.2⟩
    · rintro ⟨j, hj, hspends, hplace⟩
      have hji : j < i := by
        by_contra hnot
        exact hbehind j (by omega) hspends hj
      rw [hfixed j hji hspends] at hplace
      rw [← hplace]
      exact ⟨by omega, hspends⟩
    · have hlt := place_lt (hbefore p (hstrict p hp) hp.2 p le_rfl) (hstrict p hp)
      rwa [hfixed p (hstrict p hp) hp.2] at hlt

end Depending

section Selection

variable {sha256 : Sha256} {pool : Pool} {maxWeight : ℕ}

theorem nodup_push {s : Selected} (h : s.order.Nodup) (txid : Bytes32) : (s.push pool txid).order.Nodup := by
  unfold Selected.push
  split
  next => exact h
  next hnew =>
    change (s.order ++ [txid]).Nodup
    rw [← List.concat_eq_append]
    exact h.concat hnew

theorem nodup_consider {s : Selected} (h : s.order.Nodup) (e : MempoolEntry) :
    (s.consider sha256 pool maxWeight e).order.Nodup := by
  have hpush : ∀ (pkg : List Bytes32) (s : Selected), s.order.Nodup → (pkg.foldl (Selected.push pool) s).order.Nodup := by
    intro pkg
    induction pkg with
    | nil => exact fun s hs => hs
    | cons txid pkg ih => exact fun s hs => ih _ (nodup_push hs txid)
  unfold Selected.consider
  simp only
  split
  next => exact h
  next =>
    split
    next => exact h
    next =>
      split
      next => exact h
      next => exact hpush _ s h

theorem emitted_distinct (keyed : Keyed sha256 pool) {order : List Bytes32} (h : order.Nodup) :
    ((emitted pool order).map (Transaction.txid sha256)).Nodup := by
  refine (?_ : List.Sublist _ order).nodup h
  clear h
  induction order with
  | nil => exact List.Sublist.slnil
  | cons txid rest ih =>
    rw [emitted, List.filterMap_cons]
    cases he : pool.lookup txid with
    | none => exact ih.cons txid
    | some e =>
      change List.Sublist (e.tx.txid sha256 :: (emitted pool rest).map (Transaction.txid sha256)) _
      rw [keyed txid e he]
      exact ih.cons_cons txid

theorem selection_distinct (rates : FeeRates) (call : Mempools.Call) {m : Mempool}
    (keyed : Keyed sha256 m.transactions) :
    ((getBlockTransactions rates call sha256 m maxWeight).map (Transaction.txid sha256)).Nodup := by
  have hfold : ∀ (entries : List MempoolEntry) (s : Selected), s.order.Nodup →
      (entries.foldl (Selected.consider sha256 m.transactions maxWeight) s).order.Nodup := by
    intro entries
    induction entries with
    | nil => exact fun s hs => hs
    | cons e entries ih => exact fun s hs => ih _ (nodup_consider hs e)
  exact emitted_distinct keyed (hfold _ _ List.nodup_nil)

variable (sha256) in
/-- The transaction at one position of a list spends an output of the one at another. -/
def SpendsAt (txs : List Transaction) (i j : ℕ) : Prop :=
  ∃ tx tx', txs[i]? = some tx ∧ txs[j]? = some tx' ∧ ∃ inp ∈ tx.inputs, inp.prevOutput.txid = tx'.txid sha256

theorem hmap_insert {indexMap : Map Bytes32 ℕ} {before : List Transaction} {tx : Transaction}
    (hmap : ∀ txid j, indexMap.lookup txid = some j ↔ (before.map (Transaction.txid sha256))[j]? = some txid)
    (hfresh : tx.txid sha256 ∉ before.map (Transaction.txid sha256)) (txid : Bytes32) (j : ℕ) :
    (indexMap.insert (tx.txid sha256) before.length).lookup txid = some j ↔
      ((before ++ [tx]).map (Transaction.txid sha256))[j]? = some txid := by
  rw [lookup_insert_eq, List.map_append, List.map_singleton]
  by_cases hbefore : j < before.length
  · rw [List.getElem?_append_left (by rwa [List.length_map]), ← hmap]
    by_cases hid : txid = tx.txid sha256
    · rw [if_pos hid, hid, hmap]
      refine ⟨fun hj => ?_, fun hj => absurd (List.mem_of_getElem? hj) hfresh⟩
      have := Option.some.inj hj
      omega
    · rw [if_neg hid]
  · have hnone : (before.map (Transaction.txid sha256))[j]? = none := by
      rw [List.getElem?_eq_none_iff, List.length_map]
      omega
    rw [List.getElem?_append_right (by rw [List.length_map]; omega), List.length_map, List.getElem?_singleton]
    by_cases hid : txid = tx.txid sha256
    · rw [if_pos hid, hid]
      by_cases hj : j = before.length
      · simp [hj]
      · rw [if_neg (by omega)]
        simp [Ne.symm hj]
    · rw [if_neg hid, hmap, hnone]
      by_cases hj : j - before.length = 0
      · simp [hj, Ne.symm hid]
      · simp [hj]

theorem getElem?_templateEntries {indexMap : Map Bytes32 ℕ} {before txs : List Transaction}
    (hmap : ∀ txid j, indexMap.lookup txid = some j ↔ (before.map (Transaction.txid sha256))[j]? = some txid)
    (hdistinct : ((before ++ txs).map (Transaction.txid sha256)).Nodup) {i : ℕ} {e : BlockTemplateEntry}
    (h : (templateEntries sha256 pool before.length indexMap txs)[i]? = some e) : txs[i]? = some e.tx ∧
      ∀ p, p ∈ e.depends ↔ Listed (SpendsAt sha256 (before ++ txs)) (before.length + i) p := by
  induction txs generalizing indexMap before i with
  | nil => simp [templateEntries] at h
  | cons tx txs ih =>
    have hsplit : before ++ tx :: txs = (before ++ [tx]) ++ txs := by simp
    have hfresh : tx.txid sha256 ∉ before.map (Transaction.txid sha256) := by
      rw [List.map_append, List.map_cons] at hdistinct
      exact fun hmem => (List.nodup_append.mp hdistinct).2.2 _ hmem _ List.mem_cons_self rfl
    have hmap' := hmap_insert hmap hfresh
    cases i with
    | zero =>
      obtain rfl : _ = e := Option.some.inj h
      refine ⟨rfl, fun p => ?_⟩
      rw [List.mem_filterMap, Nat.add_zero]
      have hself : (before ++ tx :: txs)[before.length]? = some tx := by simp
      constructor
      · rintro ⟨inp, hinp, hp⟩
        rw [hmap', List.getElem?_map, Option.map_eq_some_iff] at hp
        obtain ⟨tx', htx', hid⟩ := hp
        have hle : p < (before ++ [tx]).length := (List.getElem?_eq_some_iff.mp htx').1
        rw [List.length_append, List.length_singleton] at hle
        refine ⟨by omega, tx, tx', hself, ?_, inp, hinp, hid.symm⟩
        rw [hsplit, List.getElem?_append_left (by simpa using hle), htx']
      · rintro ⟨hle, tx₁, tx', htx₁, htx', inp, hinp, hid⟩
        obtain rfl : tx = tx₁ := Option.some.inj (hself.symm.trans htx₁)
        refine ⟨inp, hinp, ?_⟩
        rw [hmap', List.getElem?_map, hid]
        rw [hsplit, List.getElem?_append_left (by simp; omega)] at htx'
        rw [htx']
        rfl
    | succ i =>
      rw [templateEntries, List.getElem?_cons_succ] at h
      have hlength : before.length + 1 = (before ++ [tx]).length := by simp
      rw [hlength] at h
      obtain ⟨htx, hdepends⟩ := ih hmap' (hsplit ▸ hdistinct) h
      refine ⟨by rw [List.getElem?_cons_succ]; exact htx, fun p => ?_⟩
      rw [hdepends, hsplit]
      have hi : (before ++ [tx]).length + i = before.length + (i + 1) := by simp; omega
      rw [hi]

end Selection

section Templates

variable (cx : Context) (rates : FeeRates) (call : Mempools.Call)

/-- Which transactions pass the checks of the template, one after another. -/
def passing (nextHeight : ℕ) (mtp : ℕ → UInt64) : UtxoSet → List Transaction → List Bool
  | _, [] => []
  | view, tx :: txs =>
      match validateTransactionCached cx.checks call.now tx view nextHeight (some mtp) with
      | .error _ => false :: passing nextHeight mtp view txs
      | .ok () =>
          match applyTransaction cx.sha256 view tx nextHeight with
          | (.error _, view') => false :: passing nextHeight mtp view' txs
          | (.ok (), view') => true :: passing nextHeight mtp view' txs

theorem passing_length (nextHeight : ℕ) (mtp : ℕ → UInt64) (view : UtxoSet) (txs : List Transaction) :
    (passing cx call nextHeight mtp view txs).length = txs.length := by
  induction txs generalizing view with
  | nil => rfl
  | cons tx txs ih =>
    unfold passing
    split
    next => exact congrArg (· + 1) (ih view)
    next =>
      split
      next view' _ => exact congrArg (· + 1) (ih view')
      next view' _ => exact congrArg (· + 1) (ih view')

theorem filterTemplateEntries_eq (nextHeight : ℕ) (mtp : ℕ → UInt64) (view : UtxoSet)
    (entries : List BlockTemplateEntry) : filterTemplateEntries cx call nextHeight mtp view entries =
      kept (passing cx call nextHeight mtp view (entries.map BlockTemplateEntry.tx)) entries := by
  induction entries generalizing view with
  | nil => rfl
  | cons entry entries ih =>
    rw [List.map_cons]
    unfold filterTemplateEntries passing
    cases validateTransactionCached cx.checks call.now entry.tx view nextHeight (some mtp) with
    | error e => exact ih view
    | ok u =>
      cases happly : applyTransaction cx.sha256 view entry.tx nextHeight with
      | mk r view' =>
        cases r with
        | error e => exact ih view'
        | ok u => exact congrArg (List.cons entry) (ih view')

theorem templateEntries_txs (sha256 : Sha256) (pool : Pool) (i : ℕ) (indexMap : Map Bytes32 ℕ)
    (txs : List Transaction) : (templateEntries sha256 pool i indexMap txs).map BlockTemplateEntry.tx = txs := by
  induction txs generalizing i indexMap with
  | nil => rfl
  | cons tx txs ih =>
    rw [templateEntries, List.map_cons, ih]

/-- Each `depends` holds the positions of the entries that are spent from, which are earlier ones. -/
def ValidDepends (sha256 : Sha256) (entries : List BlockTemplateEntry) : Prop :=
  ∀ (i : ℕ) (e : BlockTemplateEntry), entries[i]? = some e →
    (∀ p, p ∈ e.depends ↔
      ∃ e' : BlockTemplateEntry, entries[p]? = some e' ∧ ∃ inp ∈ e.tx.inputs, inp.prevOutput.txid = e'.tx.txid sha256) ∧
    ∀ p ∈ e.depends, p < i

/-- Nothing is dropped up to a transaction that a passing one spends from, and none spends from
itself or a later one that passes. -/
def Undisturbed (sha256 : Sha256) (txs : List Transaction) (flags : List Bool) : Prop :=
  ∀ i, flags[i]? = some true →
    (∀ j < i, SpendsAt sha256 txs i j → ∀ k ≤ j, flags[k]? = some true) ∧
      ∀ j, i ≤ j → SpendsAt sha256 txs i j → flags[j]? ≠ some true

/-- The positions of a template are right exactly when nothing is dropped before what they name. -/
theorem depends_valid_iff (s : NodeState) (maxSize : ℕ) (ops : List Op) (maxWeight nextHeight : ℕ) :
    ValidDepends cx.sha256
        (validatedTemplateEntries cx rates call s (run rates cx.sha256 maxSize ops) maxWeight nextHeight) ↔
      Undisturbed cx.sha256 (getBlockTransactions rates call cx.sha256 (run rates cx.sha256 maxSize ops) maxWeight)
        (passing cx call nextHeight s.getMtp s.utxoSet
          (getBlockTransactions rates call cx.sha256 (run rates cx.sha256 maxSize ops) maxWeight)) := by
  set m := run rates cx.sha256 maxSize ops with hm
  have keyed : Keyed cx.sha256 m.transactions := (accounted_run rates cx.sha256 maxSize ops).1.keyed
  set txs := getBlockTransactions rates call cx.sha256 m maxWeight with htxs
  set flags := passing cx call nextHeight s.getMtp s.utxoSet txs with hflags
  have hdistinct : ((([] : List Transaction) ++ txs).map (Transaction.txid cx.sha256)).Nodup :=
    selection_distinct rates call keyed
  have hentries : ∀ {i : ℕ} {e : BlockTemplateEntry}, (templateEntries cx.sha256 m.transactions 0 ∅ txs)[i]? = some e →
      txs[i]? = some e.tx ∧ ∀ p, p ∈ e.depends ↔ Listed (SpendsAt cx.sha256 txs) i p := by
    intro i e he
    have hread := @getElem?_templateEntries cx.sha256 m.transactions ∅ [] txs (by simp) hdistinct i e he
    simpa using hread
  have hlist : validatedTemplateEntries cx rates call s m maxWeight nextHeight =
      kept flags (templateEntries cx.sha256 m.transactions 0 ∅ txs) := by
    rw [hflags, validatedTemplateEntries, filterTemplateEntries_eq]
    change kept (passing cx call nextHeight s.getMtp s.utxoSet
      ((templateEntries cx.sha256 m.transactions 0 ∅ txs).map BlockTemplateEntry.tx)) _ = _
    rw [templateEntries_txs]
    rfl
  have hat : ∀ {i : ℕ} {tx : Transaction}, txs[i]? = some tx →
      ∃ e : BlockTemplateEntry, (templateEntries cx.sha256 m.transactions 0 ∅ txs)[i]? = some e ∧ e.tx = tx := by
    intro i tx htx
    rw [← templateEntries_txs cx.sha256 m.transactions 0 ∅ txs, List.getElem?_map, Option.map_eq_some_iff] at htx
    exact htx
  -- what an entry of the list is to hold, seen from its place in the selection
  have hneeded : ∀ {i : ℕ} {e : BlockTemplateEntry},
      (templateEntries cx.sha256 m.transactions 0 ∅ txs)[i]? = some e → ∀ p,
      (∃ e' : BlockTemplateEntry, (kept flags (templateEntries cx.sha256 m.transactions 0 ∅ txs))[p]? = some e' ∧
        ∃ inp ∈ e.tx.inputs, inp.prevOutput.txid = e'.tx.txid cx.sha256) ↔
        Needed (SpendsAt cx.sha256 txs) flags i p := by
    intro i e he p
    constructor
    · rintro ⟨e', he', hspends⟩
      obtain ⟨j, hj, hej, hplace⟩ := getElem?_kept.mp he'
      exact ⟨j, hj, ⟨e.tx, e'.tx, (hentries he).1, (hentries hej).1, hspends⟩, hplace⟩
    · rintro ⟨j, hj, ⟨tx, tx', htx, htx', hspends⟩, hplace⟩
      obtain ⟨e', he', rfl⟩ := hat htx'
      obtain rfl : e.tx = tx := Option.some.inj ((hentries he).1.symm.trans htx)
      exact ⟨e', getElem?_kept.mpr ⟨j, hj, he', hplace⟩, hspends⟩
  have hone : ∀ {i : ℕ} {e : BlockTemplateEntry}, flags[i]? = some true →
      (templateEntries cx.sha256 m.transactions 0 ∅ txs)[i]? = some e →
      (((∀ p, p ∈ e.depends ↔ Needed (SpendsAt cx.sha256 txs) flags i p) ∧ ∀ p ∈ e.depends, p < place flags i) ↔
        (∀ j < i, SpendsAt cx.sha256 txs i j → ∀ k ≤ j, flags[k]? = some true) ∧
          ∀ j, i ≤ j → SpendsAt cx.sha256 txs i j → flags[j]? ≠ some true) := by
    intro i e hi he
    rw [← listed_iff_needed hi]
    simp only [(hentries he).2]
  rw [hlist]
  constructor
  · intro hvalid i hi
    have hbound : i < txs.length := by
      rw [← passing_length cx call nextHeight s.getMtp s.utxoSet txs]
      exact (List.getElem?_eq_some_iff.mp hi).1
    obtain ⟨e, he, -⟩ := hat (List.getElem?_eq_getElem hbound)
    obtain ⟨hagree, hearlier⟩ := hvalid _ e (getElem?_kept.mpr ⟨i, hi, he, rfl⟩)
    exact (hone hi he).mp ⟨fun p => (hagree p).trans (hneeded he p), hearlier⟩
  · intro hcalm p e hp
    obtain ⟨i, hi, he, rfl⟩ := getElem?_kept.mp hp
    obtain ⟨hagree, hearlier⟩ := (hone hi he).mpr (hcalm i hi)
    exact ⟨fun p => (hagree p).trans (hneeded he p).symm, hearlier⟩

end Templates

section Strangers

open Handlers Runs BlockEffects RipeChains PoolEvictions Relays

theorem filterTemplateEntries_untimed {cx : Context} {call : Mempools.Call} {nextHeight : ℕ} (f g : ℕ → UInt64)
    (view : UtxoSet) {entries : List BlockTemplateEntry} (h : ∀ e ∈ entries, e.tx.lockTime = 0 ∧
      ∀ i ∈ e.tx.inputs, i.sequence &&& 0x400000 = 0 ∨ i.sequence &&& 0x80000000 ≠ 0) :
    filterTemplateEntries cx call nextHeight f view entries =
      filterTemplateEntries cx call nextHeight g view entries := by
  induction entries generalizing view with
  | nil => rfl
  | cons e entries ih =>
    obtain ⟨⟨hlock, hseq⟩, hrest⟩ := List.forall_mem_cons.mp h
    simp only [filterTemplateEntries, validateTransactionCached_untimed f g hlock hseq, fun view => ih view hrest]

/-- A transaction that spends nothing known pays the best rate. -/
def strangerFirst : List Op :=
  [.addTransactionWithFee (callAt 0) parentTx 30000, .addTransactionWithFee (callAt 0) parentSpend 20000,
    .addTransactionWithFee (callAt 0) childSpend 10000]

def strangerEntries : List BlockTemplateEntry :=
  getBlockTemplateEntries exactRates (callAt 0) Sha256.runSha256
    (run exactRates Sha256.runSha256 100000 strangerFirst) 4000000

theorem strangerEntries_untimed : ∀ e ∈ strangerEntries, e.tx.lockTime = 0 ∧
    ∀ i ∈ e.tx.inputs, i.sequence &&& 0x400000 = 0 ∨ i.sequence &&& 0x80000000 ≠ 0 := by
  decide +kernel

/-- The stranger is dropped: the child, second of two, says that it depends on position one. -/
theorem stranger_filtered :
    (filterTemplateEntries runScriptNode (callAt 0) 102 (fun _ => 0) fundedSet strangerEntries).map
      BlockTemplateEntry.depends = [[], [1]] := by
  decide +kernel

theorem stranger_moves_positions : ∃ a steps, NodeRun scriptNode exactRates a steps ∧
      ¬ ValidDepends scriptNode.sha256 (validatedTemplateEntries scriptNode exactRates (callAt 0) a.node
        (run exactRates scriptNode.sha256 100000 strangerFirst) 4000000 (a.node.height + 1)) := by
  obtain ⟨a, steps, h⟩ := exists_ready
  refine ⟨a, steps, h.run, fun hvalid => ?_⟩
  have hlist : validatedTemplateEntries scriptNode exactRates (callAt 0) a.node
      (run exactRates scriptNode.sha256 100000 strangerFirst) 4000000 (a.node.height + 1) =
        filterTemplateEntries runScriptNode (callAt 0) 102 (fun _ => 0) fundedSet strangerEntries := by
    rw [filterTemplateEntries_untimed (fun _ => 0) a.node.getMtp fundedSet strangerEntries_untimed,
      runScriptNode_eq, validatedTemplateEntries, h.height, h.set]
    simp only [strangerEntries, Sha256.runSha256_eq]
    rfl
  rw [hlist] at hvalid
  obtain ⟨e, he, hdepends⟩ := Option.map_eq_some_iff.mp
    ((List.getElem?_map ..).symm.trans (congrArg (fun l => l[1]?) stranger_filtered))
  obtain ⟨-, hearlier⟩ := hvalid 1 e he
  have hlt := hearlier 1 (by rw [hdepends]; exact List.mem_singleton.mpr rfl)
  omega

end Strangers

end KuberCoin.TemplateDepends
