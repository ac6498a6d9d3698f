import StakingLedger.Proofs.Ledger.StakerReplay
import StakingLedger.Proofs.Ledger.Stack

/-! # Folding a layer

The writes of a layer, replayed on the contents of its parent, give the
contents of the layer, and each of them keeps to the contract when its turn
comes. So a fold changes no read, and layers may be folded in any order in
which they can be.
-/

namespace StakingLedger

/-! ## Series of updates -/

section Updates

variable {α β γ : Type} [DecidableEq α]

theorem foldl_update_overlaid (pairs : List (α × β)) (g : β → γ) (f : α → Answer γ) :
    pairs.foldl (fun f e => Function.update f e.1 (.ok (g e.2))) f =
      fun k => overlaid ((OrderedMap.lastValue? pairs k).map g) (f k) := by
  induction pairs generalizing f with
  | nil => rfl
  | cons e rest ih =>
      rw [List.foldl_cons, ih]
      funext k
      rw [← List.singleton_append, OrderedMap.lastValue?_append, OrderedMap.lastValue?_singleton]
      cases hrest : OrderedMap.lastValue? rest k with
      | some v => rfl
      | none =>
          by_cases hk : k = e.1
          · subst hk
            simp
          · simp [Function.update_of_ne hk, Ne.symm hk]

variable [Ord α] [Std.LawfulEqOrd α]

/-- Adding to what is there, under each key once. -/
theorem foldl_modify_overlaid {pairs : List (α × β)} (g : β → γ → γ) (f : α → Answer γ)
    (hsorted : pairs.Pairwise fun a b => compare a.1 b.1 = .lt) :
    pairs.foldl (fun f e => Function.update f e.1 ((f e.1).map (g e.2))) f =
      fun k => match OrderedMap.lastValue? pairs k with
        | some v => (f k).map (g v)
        | none => f k := by
  induction pairs generalizing f with
  | nil => rfl
  | cons e rest ih =>
      obtain ⟨hhead, htail⟩ := List.pairwise_cons.mp hsorted
      rw [List.foldl_cons, ih _ htail]
      funext k
      rw [← List.singleton_append, OrderedMap.lastValue?_append, OrderedMap.lastValue?_singleton]
      by_cases hk : k = e.1
      · subst hk
        have hnone : OrderedMap.lastValue? rest e.1 = none :=
          OrderedMap.lastValue?_eq_none_iff.mpr fun v hmem =>
            OrderedMap.ne_of_compare_lt (hhead _ hmem) rfl
        rw [hnone, if_pos rfl, Option.none_or, Function.update_self]
      · rw [Function.update_of_ne hk, if_neg (Ne.symm hk), Option.or_none]

/-- Setting what a map says, entry by entry. -/
theorem foldl_update_entries (m : OrderedMap α β) (g : β → γ) (f : α → Answer γ) :
    m.entries.foldl (fun f e => Function.update f e.1 (.ok (g e.2))) f =
      fun k => overlaid ((m.get? k).map g) (f k) := by
  rw [foldl_update_overlaid]
  simp only [OrderedMap.lastValue?_entries]

/-- Adding to what is there, entry by entry; every key has one entry. -/
theorem foldl_modify_entries (m : OrderedMap α β) (g : β → γ → γ) (f : α → Answer γ) :
    m.entries.foldl (fun f e => Function.update f e.1 ((f e.1).map (g e.2))) f =
      fun k => match m.get? k with
        | some v => (f k).map (g v)
        | none => f k := by
  rw [foldl_modify_overlaid _ _ m.sorted]
  simp only [OrderedMap.lastValue?_entries]

end Updates

namespace Contents

variable {c : Contents}

/-- Writes in groups that each change the same part of the contents. -/
theorem writeAll_flatMap {ι σ : Type} {items : List ι} {writes : ι → List Write}
    (get : Contents → σ) (set : Contents → σ → Contents) (step : σ → ι → σ)
    (hget : ∀ c x, get (set c x) = x) (hset : ∀ c x y, set (set c x) y = set c y)
    (hsame : ∀ c, set c (get c) = c)
    (hwrites : ∀ c, ∀ i ∈ items, c.writeAll (writes i) = set c (step (get c) i)) :
    c.writeAll (items.flatMap writes) = set c (items.foldl step (get c)) := by
  induction items generalizing c with
  | nil => exact (hsame c).symm
  | cons i rest ih =>
      rw [List.flatMap_cons, writeAll_append, hwrites c i List.mem_cons_self,
        ih fun c j hj => hwrites c j (List.mem_cons_of_mem _ hj), hget, hset]
      rfl

/-- The entries of a map, each written to its own key. -/
theorem writeAll_entries {κ α β : Type} [DecidableEq κ] [Ord κ] [Std.LawfulEqOrd κ]
    (m : OrderedMap κ α) {write : κ × α → Write} (get : Contents → κ → Answer β)
    (set : Contents → (κ → Answer β) → Contents) (g : α → β) (hget : ∀ c x, get (set c x) = x) (hset : ∀ c x y, set (set c x) y = set c y)
    (hsame : ∀ c, set c (get c) = c)
    (hwrite : ∀ c, ∀ e ∈ m.entries,
      c.write (write e) = set c (Function.update (get c) e.1 (.ok (g e.2)))) :
    c.writeAll (m.entries.map write) = set c fun k => overlaid ((m.get? k).map g) (get c k) := by
  rw [List.map_eq_flatMap, writeAll_flatMap get set
    (fun f e => Function.update f e.1 (.ok (g e.2))) hget hset hsame hwrite, foldl_update_entries]

/-- Records that are filed under their own identifiers, written one after the other. -/
theorem writeAll_values {β : Type} {m : OrderedMap EntityId β} {write : β → Write}
    {key : β → EntityId} (hfiled : ∀ id record, m.get? id = some record → key record = id)
    (get : Contents → EntityId → Answer (Option β))
    (set : Contents → (EntityId → Answer (Option β)) → Contents)
    (hget : ∀ c x, get (set c x) = x) (hset : ∀ c x y, set (set c x) y = set c y)
    (hsame : ∀ c, set c (get c) = c)
    (hwrite : ∀ c record,
      c.write (write record) = set c (Function.update (get c) (key record) (.ok (some record)))) :
    c.writeAll (m.values.map write) =
      set c fun k => overlaid ((m.get? k).map some) (get c k) := by
  rw [OrderedMap.values, List.map_map, writeAll_entries m get set some hget hset hsame]
  intro c entry hentry
  rw [← hfiled entry.1 entry.2 (OrderedMap.get?_eq_some_iff.mpr hentry)]
  exact hwrite c entry.2

/-! ## Balances -/

theorem writeAll_supplies (c : Contents) (m : OrderedMap EntityId UInt64) :
    c.writeAll (m.entries.map fun (supernet, amount) => .setSupply supernet amount) =
      { c with supply := fun k => overlaid (m.get? k) (c.supply k) } := by
  rw [writeAll_entries m (·.supply) (fun c f => { c with supply := f }) id (fun _ _ => rfl)
    (fun _ _ _ => rfl) (fun _ => rfl) fun _ _ _ => rfl]
  simp only [Option.map_id_fun, id_eq]

theorem writeAll_rewardPools (c : Contents) (m : OrderedMap EntityId UInt64) :
    c.writeAll (m.entries.map fun (supernet, amount) => .setRewardPool supernet amount) =
      { c with rewardPool := fun k => overlaid (m.get? k) (c.rewardPool k) } := by
  rw [writeAll_entries m (·.rewardPool) (fun c f => { c with rewardPool := f }) id (fun _ _ => rfl)
    (fun _ _ _ => rfl) (fun _ => rfl) fun _ _ _ => rfl]
  simp only [Option.map_id_fun, id_eq]

/-! ## Records -/

theorem writeAll_rewards (c : Contents) (stakerTx : EntityId) (utxos : List Utxo) :
    c.writeAll (utxos.map (Write.addRewardUtxo stakerTx)) =
      { c with
        rewardUtxos := Function.update c.rewardUtxos stakerTx
          ((c.rewardUtxos stakerTx).map (· ++ utxos)) } := by
  induction utxos generalizing c with
  | nil =>
      have hsame : (c.rewardUtxos stakerTx).map (· ++ []) = c.rewardUtxos stakerTx := by
        cases c.rewardUtxos stakerTx <;> simp [Except.map]
      rw [hsame, Function.update_eq_self]
      rfl
  | cons utxo rest ih =>
      rw [List.map_cons]
      change (c.write _).writeAll _ = _
      rw [ih]
      simp only [write, Function.update_self, Function.update_idem]
      congr 2
      cases c.rewardUtxos stakerTx <;> simp [Except.map]

theorem writeAll_chains (c : Contents) (supernet : EntityId) (pairs : List (EntityId × ChainRecord))
    (hfiled : ∀ e ∈ pairs, e.2.id = e.1 ∧ e.2.supernetId = supernet) :
    c.writeAll (pairs.map fun e => Write.addChain e.2) =
      { c with
        chains := Function.update c.chains supernet
          ((c.chains supernet).map (·.insertMany pairs)) } := by
  induction pairs generalizing c with
  | nil =>
      have hsame : (c.chains supernet).map (·.insertMany []) = c.chains supernet := by
        cases c.chains supernet <;> rfl
      rw [hsame, Function.update_eq_self]
      rfl
  | cons e rest ih =>
      obtain ⟨hid, hsupernet⟩ := hfiled e List.mem_cons_self
      rw [List.map_cons]
      change (c.write _).writeAll _ = _
      rw [ih _ fun e' he' => hfiled e' (List.mem_cons_of_mem _ he')]
      simp only [write, hid, hsupernet, Function.update_self, Function.update_idem]
      congr 2
      cases c.chains supernet <;> rfl

/-- Chains that are told apart by supernet and identifier may be registered one after the other. -/
theorem accepts_chains {chains : List ChainRecord}
    (hnew : ∀ chain ∈ chains, c.RegistersNewChain (.addChain chain))
    (hdistinct : chains.Pairwise fun a b => a.supernetId = b.supernetId → a.id ≠ b.id) :
    c.Accepts RegistersNewChain (chains.map .addChain) := by
  -- Registering one chain takes no identifier that a later one needs.
  induction chains generalizing c with
  | nil => trivial
  | cons chain rest ih =>
      obtain ⟨hhead, htail⟩ := List.pairwise_cons.mp hdistinct
      refine ⟨hnew chain List.mem_cons_self, ih (fun other hother held hheld => ?_) htail⟩
      have hbefore := hnew other (List.mem_cons_of_mem _ hother)
      by_cases hsupernet : chain.supernetId = other.supernetId
      · simp only [write, hsupernet, Function.update_self] at hheld
        cases hbelow : c.chains other.supernetId with
        | error e => rw [hbelow] at hheld; cases hheld
        | ok below =>
            rw [hbelow] at hheld
            cases hheld
            rw [OrderedMap.get?_insert_ne _ _ (hhead other hother hsupernet).symm]
            exact hbefore below hbelow
      · simp only [write, Function.update_of_ne (Ne.symm hsupernet)] at hheld
        exact hbefore held hheld

end Contents

namespace RecordEdits

variable {e : RecordEdits} {c : Contents} {above : Records}

theorem writeAll_utxos (h : e.Filed) (c : Contents) {write : UtxoId × Option Utxo → Write}
    (hsome : ∀ id utxo, write (id, some utxo) = .addUtxo utxo)
    (hnone : ∀ id, write (id, none) = .deleteUtxo id) :
    c.writeAll (e.utxos.entries.map write) =
      { c with utxo := fun k => overlaid (e.utxos.get? k) (c.utxo k) } := by
  have hwrite : ∀ (c : Contents), ∀ entry ∈ e.utxos.entries,
      c.write (write entry) =
        { c with utxo := Function.update c.utxo entry.1 (.ok (id entry.2)) } := by
    rintro c ⟨key, utxo?⟩ hentry
    cases utxo? with
    | none => rw [hnone]; rfl
    | some utxo =>
        have hid := h.utxos key utxo (OrderedMap.get?_eq_some_iff.mpr hentry)
        subst hid
        rw [hsome]
        rfl
  rw [Contents.writeAll_entries e.utxos (·.utxo) (fun c f => { c with utxo := f }) id
    (fun _ _ => rfl) (fun _ _ _ => rfl) (fun _ => rfl) hwrite]
  simp only [Option.map_id_fun, id_eq]

theorem writeAll_rewardUtxos (e : RecordEdits) (c : Contents) :
    c.writeAll (e.rewardUtxos.entries.flatMap fun (stakerTx, utxos) =>
        utxos.map (Write.addRewardUtxo stakerTx)) =
      { c with
        rewardUtxos := fun k => (c.rewardUtxos k).map (· ++ e.heldRewards k) } := by
  have hfold := foldl_modify_entries e.rewardUtxos (fun utxos paid => paid ++ utxos) c.rewardUtxos
  rw [Contents.writeAll_flatMap (·.rewardUtxos) (fun c f => { c with rewardUtxos := f })
    (fun f entry => Function.update f entry.1 ((f entry.1).map (· ++ entry.2)))
    (fun _ _ => rfl) (fun _ _ _ => rfl) (fun _ => rfl)
    fun c entry _ => Contents.writeAll_rewards c entry.1 entry.2, hfold]
  congr 2
  funext k
  unfold heldRewards
  cases e.rewardUtxos.get? k with
  | some utxos => rfl
  | none => cases c.rewardUtxos k <;> simp [Except.map]

theorem writeAll_supernets (h : e.Filed) (c : Contents) :
    c.writeAll (e.supernets.values.map .addSupernet) =
      { c with
        supernet := fun k => overlaid ((e.supernets.get? k).map some) (c.supernet k) } :=
  Contents.writeAll_values h.supernets (·.supernet) (fun c f => { c with supernet := f })
    (fun _ _ => rfl) (fun _ _ _ => rfl) (fun _ => rfl) fun _ _ => rfl

theorem writeAll_transformations (h : e.Filed) (c : Contents) :
    c.writeAll (e.transformations.values.map .addTransformation) =
      { c with
        transformation := fun k =>
          overlaid ((e.transformations.get? k).map some) (c.transformation k) } :=
  Contents.writeAll_values h.transformations (·.transformation) (fun c f => { c with transformation := f })
    (fun _ _ => rfl) (fun _ _ _ => rfl) (fun _ => rfl) fun _ _ => rfl

theorem heldChains_of_mem {entry : EntityId × OrderedMap EntityId ChainRecord}
    (hentry : entry ∈ e.chains.entries) : e.heldChains entry.1 = entry.2 := by
  rw [heldChains, OrderedMap.get?_eq_some_iff.mpr hentry, Option.getD_some]

theorem filed_of_mem (h : e.Filed) {entry : EntityId × OrderedMap EntityId ChainRecord}
    (hentry : entry ∈ e.chains.entries) {found : EntityId × ChainRecord}
    (hfound : found ∈ entry.2.entries) :
    found.2.id = found.1 ∧ found.2.supernetId = entry.1 := by
  refine h.chains entry.1 found.1 found.2 ?_
  rw [heldChains_of_mem hentry]
  exact OrderedMap.get?_eq_some_iff.mpr hfound

theorem writeAll_heldChains (h : e.Filed) (c : Contents) :
    c.writeAll (e.chains.values.flatMap fun chains => chains.values.map .addChain) =
      { c with
        chains := fun k => (c.chains k).map (·.insertMany (e.heldChains k).entries) } := by
  have hwrites : ∀ (c : Contents), ∀ entry ∈ e.chains.entries,
      c.writeAll (entry.2.values.map .addChain) =
        { c with
          chains := Function.update c.chains entry.1
            ((c.chains entry.1).map (·.insertMany entry.2.entries)) } := by
    intro c entry hentry
    rw [OrderedMap.values, List.map_map]
    exact Contents.writeAll_chains c entry.1 entry.2.entries fun found hfound =>
      filed_of_mem h hentry hfound
  have hfold := foldl_modify_entries e.chains
    (fun (held : OrderedMap EntityId ChainRecord) below => below.insertMany held.entries) c.chains
  rw [OrderedMap.values, List.flatMap_map, Contents.writeAll_flatMap (·.chains)
    (fun c f => { c with chains := f })
    (fun f entry => Function.update f entry.1 ((f entry.1).map (·.insertMany entry.2.entries)))
    (fun _ _ => rfl) (fun _ _ _ => rfl) (fun _ => rfl) hwrites, hfold]
  congr 2
  funext k
  unfold heldChains
  cases e.chains.get? k with
  | some held => rfl
  | none => cases c.chains k <;> rfl

theorem writeAll_txs (h : e.Filed) (c : Contents) :
    c.writeAll (e.txs.values.map fun (tx, status) => .addTx tx status) =
      { c with tx := fun k => overlaid ((e.txs.get? k).map some) (c.tx k) } :=
  Contents.writeAll_values h.txs (·.tx) (fun c f => { c with tx := f })
    (fun _ _ => rfl) (fun _ _ _ => rfl) (fun _ => rfl) fun _ _ => rfl

/-- The replayed record writes lead from the records below to those above. -/
theorem writeAll_replay (h : e.Carries c.toRecords above) (hfiled : e.Filed) :
    c.writeAll e.replay = { c with toRecords := above } := by
  unfold replay
  simp only [Contents.writeAll_append]
  rw [writeAll_utxos hfiled c (fun _ _ => rfl) fun _ => rfl]
  simp only [writeAll_rewardUtxos, writeAll_supernets hfiled, writeAll_transformations hfiled,
    writeAll_heldChains hfiled, writeAll_txs hfiled]
  congr 1
  exact Records.ext (funext fun k => (h.utxo k).symm) (funext fun k => (h.rewardUtxos k).symm)
    (funext fun k => (h.supernet k).symm) (funext fun k => (h.transformation k).symm)
    (funext fun k => (h.chains k).symm) (funext fun k => (h.tx k).symm)

/-- Replayed record writes say nothing about stakers. -/
theorem allows_of_mem_replay {book : Book} {w : Write} (hw : w ∈ e.replay) (c : Contents) :
    c.Allows book w := by
  simp only [replay, List.mem_append, List.mem_map, List.mem_flatMap] at hw
  rcases hw with ((((⟨entry, _, rfl⟩ | ⟨entry, _, utxo, _, rfl⟩) | ⟨supernet, _, rfl⟩) |
    ⟨t, _, rfl⟩) | ⟨held, _, chain, _, rfl⟩) | ⟨tx, _, rfl⟩
  · cases entry.2 <;> trivial
  all_goals trivial

/-- Replayed record writes register new chains, if the chains held back are new. -/
theorem accepts_replay (hfiled : e.Filed)
    (hnew : ∀ supernet held, c.chains supernet = .ok held →
      ∀ id, (e.heldChains supernet).contains id = true → held.get? id = none) :
    c.Accepts Contents.RegistersNewChain e.replay := by
  have hchains : ∀ chain ∈ e.chains.entries.flatMap (fun entry => entry.2.values),
      c.RegistersNewChain (.addChain chain) := by
    intro chain hchain held hheld
    obtain ⟨entry, hentry, hfound⟩ := List.mem_flatMap.mp hchain
    obtain ⟨found, hmem, rfl⟩ := List.mem_map.mp hfound
    obtain ⟨hid, hsupernet⟩ := filed_of_mem hfiled hentry hmem
    refine hnew _ held hheld _ (OrderedMap.contains_eq_true_iff.mpr ⟨found.2, ?_⟩)
    rw [hsupernet, heldChains_of_mem hentry, hid]
    exact OrderedMap.get?_eq_some_iff.mpr hmem
  have hdistinct : (e.chains.entries.flatMap fun entry => entry.2.values).Pairwise
      fun a b => a.supernetId = b.supernetId → a.id ≠ b.id := by
    refine List.pairwise_flatMap.mpr ⟨fun entry hentry => ?_,
      e.chains.sorted.imp_of_mem fun {a b} ha hb hlt x hx y hy hsame => ?_⟩
    · refine List.pairwise_map.mpr (entry.2.sorted.imp_of_mem fun {x y} hx hy hlt _ => ?_)
      rw [(filed_of_mem hfiled hentry hx).1, (filed_of_mem hfiled hentry hy).1]
      exact OrderedMap.ne_of_compare_lt hlt
    · obtain ⟨found, hfound, rfl⟩ := List.mem_map.mp hx
      obtain ⟨found', hfound', rfl⟩ := List.mem_map.mp hy
      rw [(filed_of_mem hfiled ha hfound).2, (filed_of_mem hfiled hb hfound').2] at hsame
      exact absurd hsame (OrderedMap.ne_of_compare_lt hlt)
  have hwrites : (e.chains.values.flatMap fun chains => chains.values.map Write.addChain) =
      (e.chains.entries.flatMap fun entry => entry.2.values).map .addChain := by
    rw [List.map_flatMap, OrderedMap.values, List.flatMap_map]
  unfold replay
  rw [hwrites]
  refine Contents.accepts_append.mpr ⟨Contents.accepts_append.mpr ⟨?_, ?_⟩, ?_⟩
  · refine Contents.accepts_of_forall fun w hw c => ?_
    simp only [List.mem_append, List.mem_map, List.mem_flatMap] at hw
    rcases hw with ((⟨entry, _, rfl⟩ | ⟨entry, _, utxo, _, rfl⟩) | ⟨supernet, _, rfl⟩) |
      ⟨t, _, rfl⟩
    · cases entry.2 <;> trivial
    all_goals trivial
  · refine Contents.accepts_chains (fun chain hchain held hheld => ?_) hdistinct
    refine hchains chain hchain held ?_
    -- the writes before the chains leave the chains as they are
    simp only [Contents.writeAll_append] at hheld
    rw [writeAll_utxos hfiled c (fun _ _ => rfl) fun _ => rfl] at hheld
    simpa only [writeAll_rewardUtxos, writeAll_supernets hfiled,
      writeAll_transformations hfiled] using hheld
  · refine Contents.accepts_of_forall fun w hw c => ?_
    obtain ⟨tx, _, rfl⟩ := List.mem_map.mp hw
    trivial

end RecordEdits

/-! ## The whole layer -/

namespace Changes

variable {ch : Changes} {book : Book} {below above : Contents}

/-- The balances of the contents below, set as the changes say. -/
def balanced (ch : Changes) (below : Contents) : Contents :=
  { below with
    timestamp := ch.timestamp
    feePool := ch.feePool
    supply := fun k => overlaid (ch.supplies.get? k) (below.supply k)
    rewardPool := fun k => overlaid (ch.rewardPools.get? k) (below.rewardPool k) }

/-- The writes of time and balances, at the front of a replay. -/
def balanceWrites (ch : Changes) : List Write :=
  [.setTimestamp ch.timestamp, .setFeePool ch.feePool] ++
    ch.supplies.entries.map (fun (supernet, amount) => .setSupply supernet amount) ++
    ch.rewardPools.entries.map (fun (supernet, amount) => .setRewardPool supernet amount)

theorem writeAll_balanceWrites (ch : Changes) (below : Contents) :
    below.writeAll ch.balanceWrites = ch.balanced below := by
  rw [balanceWrites, Contents.writeAll_append, Contents.writeAll_append,
    Contents.writeAll_supplies, Contents.writeAll_rewardPools]
  rfl

theorem of_mem_balanceWrites {w : Write} (hw : w ∈ ch.balanceWrites) :
    (∀ (book : Book) (c : Contents), c.Allows book w) ∧ ¬ w.IsRecord := by
  simp only [balanceWrites, List.mem_append, List.mem_map, List.mem_cons, List.not_mem_nil,
    or_false] at hw
  rcases hw with ((rfl | rfl) | ⟨entry, _, rfl⟩) | ⟨entry, _, rfl⟩ <;>
    exact ⟨fun _ _ => trivial, not_false⟩

theorem not_isRecord_of_mem_registry {phase : Phase} {o : RegistryOverlay} {w : Write}
    (hw : w ∈ o.writes phase) : ¬ w.IsRecord := by
  rcases List.mem_append.mp hw with hw | hw
  · obtain ⟨s, _, rfl⟩ := List.mem_map.mp hw
    exact Contents.not_isRecord_delete phase s
  · obtain ⟨d, _, hw⟩ := List.mem_flatMap.mp hw
    rcases List.mem_append.mp hw with hw | hw
    · split at hw
      · rw [List.mem_singleton.mp hw]
        exact not_false
      · cases hw
    · obtain ⟨s, _, rfl⟩ := List.mem_map.mp hw
      exact not_false

/-- The writes before the record edits. -/
theorem not_isRecord_of_mem_front {w : Write}
    (hw : w ∈ ch.balanceWrites ++ ch.registries.current.writes .current ++
      ch.registries.pending.writes .pending) : ¬ w.IsRecord := by
  rcases List.mem_append.mp hw with hw | hw
  · rcases List.mem_append.mp hw with hw | hw
    · exact (of_mem_balanceWrites hw).2
    · exact not_isRecord_of_mem_registry hw
  · exact not_isRecord_of_mem_registry hw

theorem registersNothing_of_mem_front {w : Write}
    (hw : w ∈ ch.balanceWrites ++ ch.registries.current.writes .current ++
      ch.registries.pending.writes .pending) : w.RegistersNothing :=
  Contents.registersNothing_of_not_isRecord (not_isRecord_of_mem_front hw)

namespace Carries

theorem balanced_proper (ch : Changes) (hbelow : below.Proper book) : (ch.balanced below).Proper book :=
  ⟨hbelow.recorded, hbelow.slots, hbelow.chains⟩

/-- Replaying the changes of a layer on the contents below gives those of the layer; every write
keeps to the contract when its turn comes. -/
theorem replay (h : ch.Carries below above) (hbelow : below.Proper book)
    (habove : above.Proper book) :
    below.writeAll ch.writes = above ∧ below.Accepts (Contents.Allows book) ch.writes ∧
      below.Accepts Contents.RegistersNewChain ch.writes := by
  have hwrites : ch.writes = ch.balanceWrites ++ ch.registries.current.writes .current ++
      ch.registries.pending.writes .pending ++ ch.edits.replay := rfl
  obtain ⟨hcurrentAllowed, hcurrent⟩ := (h.registries .current).replay (c := ch.balanced below)
    (balanced_proper ch hbelow) (habove.slots .current) (habove.recorded .current)
  have hproper := (balanced_proper ch hbelow).updateStakers
    (f := fun _ => above.stakers .current) (habove.recorded .current) (habove.slots .current)
  have hpendingNets : (ch.registries.get .pending).Nets
      (((ch.balanced below).updateStakers .current fun _ => above.stakers .current).stakers
        .pending) (above.stakers .pending) := by
    rw [Contents.updateStakers_ne _ _ (by decide)]
    exact h.registries .pending
  obtain ⟨hpendingAllowed, hpending⟩ := hpendingNets.replay hproper (habove.slots .pending)
    (habove.recorded .pending)
  have hstaffed : below.writeAll (ch.balanceWrites ++ ch.registries.current.writes .current ++
      ch.registries.pending.writes .pending) =
      ((ch.balanced below).updateStakers .current fun _ => above.stakers .current).updateStakers
        .pending fun _ => above.stakers .pending := by
    rw [Contents.writeAll_append, Contents.writeAll_append, writeAll_balanceWrites]
    exact (congrArg (Contents.writeAll · _) hcurrent).trans hpending
  rw [hwrites]
  refine ⟨?_, Contents.accepts_append.mpr ⟨Contents.accepts_append.mpr
    ⟨Contents.accepts_append.mpr ⟨?_, ?_⟩, ?_⟩, ?_⟩, Contents.accepts_append.mpr ⟨?_, ?_⟩⟩
  · rw [Contents.writeAll_append, hstaffed]
    have hedits : ch.edits.Carries (((ch.balanced below).updateStakers .current
        fun _ => above.stakers .current).updateStakers .pending
        fun _ => above.stakers .pending).toRecords above.toRecords := h.edits
    rw [RecordEdits.writeAll_replay hedits h.filed]
    refine Contents.ext rfl rfl rfl rfl rfl rfl h.timestamp.symm h.feePool.symm
      (funext fun k => (h.supply k).symm) (funext fun k => (h.rewardPool k).symm) ?_
    funext phase
    cases phase with
    | pending => simp only [Contents.updateStakers_self]
    | current =>
        simp only [Contents.updateStakers_ne _ _ (show Phase.current ≠ .pending by decide),
          Contents.updateStakers_self]
  · exact Contents.accepts_of_forall fun w hw c => (of_mem_balanceWrites hw).1 book c
  · rw [writeAll_balanceWrites]
    exact hcurrentAllowed
  · rw [Contents.writeAll_append, writeAll_balanceWrites]
    exact hcurrent ▸ hpendingAllowed
  · exact Contents.accepts_of_forall fun w hw c => RecordEdits.allows_of_mem_replay hw c
  · exact Contents.accepts_of_forall fun w hw c =>
      Contents.registersNewChain_of_registersNothing (registersNothing_of_mem_front hw) c
  · rw [hstaffed]
    exact RecordEdits.accepts_replay h.filed h.newChains

end Carries

end Changes

end StakingLedger
