import StakingLedger.Proofs.Lifecycle.Timeliness

/-! # Validators that back others

A primary delegator and every supernet validator depend on the primary validator
of their node, and a supernet delegator on the validator of its slot. No operation
looks at this again once a staker was admitted. It lasts because those who depend
on a validator come before it among the stakers that change at one time, because
claims take the first staker only, and because time stops at every change.
-/

namespace StakingLedger

namespace StakerKind

/-- The kinds of the primary network. -/
def isPrimary : StakerKind → Bool
  | .primaryValidator | .primaryDelegator => true
  | _ => false

/-- The kinds that stake on a supernet open to everybody. -/
def isPermissionless : StakerKind → Bool
  | .permissionlessValidator | .permissionlessDelegator => true
  | _ => false

/-- The kinds that stake only as long as their node validates the primary network: its delegators,
and the validators of supernets. -/
def needsPrimary : StakerKind → Bool
  | .primaryDelegator | .permissionedValidator | .permissionlessValidator => true
  | _ => false

variable {k : StakerKind}

theorem eq_primaryValidator (hprimary : k.isPrimary = true) (hvalidator : k.isValidator = true) :
    k = .primaryValidator := by
  cases k <;> simp_all [isPrimary, isValidator, isDelegator]

theorem eq_permissionlessValidator (hprimary : k.isPrimary = false)
    (hvalidator : k.isValidator = true) (hrewarded : k ≠ .permissionedValidator) :
    k = .permissionlessValidator := by
  cases k <;> simp_all [isPrimary, isValidator, isDelegator]

theorem isPrimary_of_needsPrimary (hneeds : k.needsPrimary = true)
    (hdelegates : k.isValidator = false) : k.isPrimary = true := by
  cases k <;> simp_all [isPrimary, isValidator, isDelegator, needsPrimary]

/-- Among the current stakers that end at one time, primary validators come last. -/
theorem rank_lt_of_needsPrimary (h : k.needsPrimary = true) :
    (Priority.current k).rank < (Priority.current .primaryValidator).rank := by
  cases k <;> first | decide | cases h

end StakerKind

namespace Staker

variable {s t : Staker}

/-- The staker after a move of time is the same, or it was promoted. -/
def Becomes (s t : Staker) : Prop := t = s ∨ ∃ reward, t = s.promoted reward

namespace Becomes

theorem slot (h : s.Becomes t) : t.slot = s.slot := by
  rcases h with rfl | ⟨_, rfl⟩ <;> rfl

theorem startTime (h : s.Becomes t) : t.startTime = s.startTime := by
  rcases h with rfl | ⟨_, rfl⟩ <;> rfl

theorem endTime (h : s.Becomes t) : t.endTime = s.endTime := by
  rcases h with rfl | ⟨_, rfl⟩ <;> rfl

theorem kind (h : s.Becomes t) : t.priority.kind = s.priority.kind := by
  rcases h with rfl | ⟨_, rfl⟩
  · rfl
  · exact Priority.kind_toCurrent _

theorem supernetId (h : s.Becomes t) : t.supernetId = s.supernetId :=
  congrArg Slot.supernetId h.slot

theorem nodeId (h : s.Becomes t) : t.nodeId = s.nodeId := congrArg Slot.nodeId h.slot

end Becomes

end Staker

variable {configs : Set StakingConfig} {config : StakingConfig} {l l' : Ledger} {c c' : Contents}
  {writes : List Write} {g : Genesis} {state : State} {time : UInt64} {s t v : Staker}
  {slot : Slot} {phase : Phase}

namespace Contents

/-- A validator of the slot stays throughout the period of a staker, and is current if that is. -/
def Covers (c : Contents) (slot : Slot) (phase : Phase) (s : Staker) : Prop :=
  ∃ phase', ∃ v ∈ c.stakers phase', v.isValidator = true ∧ v.slot = slot ∧
    v.startTime ≤ s.startTime ∧ s.endTime ≤ v.endTime ∧ (phase = .current → phase' = .current)

/-- Every staker has the validator that it depends on. A current delegator of an open supernet may
outlast a permissioned validator, but not beyond the end of its own period. -/
structure Backed (c : Contents) : Prop where
  untransformed : c.transformation .primaryNetwork = .ok none
  valid : ∀ supernet t, c.transformation supernet = .ok (some t) → t.staking.validate = .ok ()
  home : ∀ phase, ∀ s ∈ c.stakers phase,
    s.supernetId = .primaryNetwork ↔ s.priority.kind.isPrimary = true
  opened : ∀ phase, ∀ s ∈ c.stakers phase, s.priority.kind.isPermissionless = true →
    ∃ t, c.transformation s.supernetId = .ok (some t)
  primary : ∀ phase, ∀ s ∈ c.stakers phase, s.priority.kind.needsPrimary = true →
    c.Covers ⟨.primaryNetwork, s.nodeId⟩ phase s
  hosted : ∀ phase, ∀ s ∈ c.stakers phase, s.priority.kind = .permissionlessDelegator →
    c.Covers s.slot phase s ∨ (phase = .current ∧ s.endTime = c.timestamp)

theorem backed_genesis (r : State.GenesisRecord {} g state) : r.contents.Backed := by
  have hfigures := r.figures_contents
  simp only [figures, Prod.mk.injEq] at hfigures
  obtain ⟨_, _, _, htransformation⟩ := hfigures
  have hkind : ∀ phase, ∀ s ∈ r.contents.stakers phase,
      s.priority.kind = .primaryValidator ∧ s.supernetId = .primaryNetwork := by
    rw [r.stakers_contents]
    intro phase s hs
    cases phase with
    | pending => exact absurd hs (Set.notMem_empty s)
    | current =>
        obtain ⟨p, hp, rfl⟩ := hs
        obtain ⟨hkind, hprimary⟩ := r.kind hp
        exact ⟨(Priority.kind_current p.tx.kind).trans hkind, hprimary⟩
  refine ⟨congrFun htransformation _, fun supernet t ht => ?_, fun phase s hs => ?_,
    fun phase s hs hopen => ?_, fun phase s hs hneeds => ?_, fun phase s hs hdelegates => ?_⟩
  · rw [htransformation] at ht
    cases ht
  · rw [(hkind phase s hs).1]
    exact iff_of_true (hkind phase s hs).2 rfl
  · rw [(hkind phase s hs).1] at hopen
    cases hopen
  · rw [(hkind phase s hs).1] at hneeds
    cases hneeds
  · rw [(hkind phase s hs).1] at hdelegates
    cases hdelegates

/-! ## Covers that last -/

theorem Covers.mono (h : c.Covers slot phase s)
    (hsub : ∀ phase, ∀ t ∈ c.stakers phase, t ∈ c'.stakers phase) : c'.Covers slot phase s := by
  obtain ⟨phase', v, hv, hrest⟩ := h
  exact ⟨phase', v, hsub phase' v hv, hrest⟩

/-- A validator outlasts a move of time, but for one that expires, and is current from its start. -/
theorem Timely.validator_advances (htimely : c.Timely) (hadvances : c.Advances time c')
    (hv : v ∈ c.stakers phase) :
    (phase = .current ∧ v.Expires time) ∨ ∃ phase' v', v' ∈ c'.stakers phase' ∧ v.Becomes v' ∧
      (phase = .current ∨ v.startTime ≤ time → phase' = .current) := by
  cases phase with
  | current =>
      by_cases hexpires : v.Expires time
      · exact Or.inl ⟨rfl, hexpires⟩
      · exact Or.inr ⟨.current, v, hadvances.stayed v hv hexpires, Or.inl rfl, fun _ => rfl⟩
  | pending =>
      right
      have hwaits := htimely.waits v hv
      by_cases hdue : v.nextTime = time
      · obtain ⟨reward, hreward⟩ := hadvances.promoted v hv hdue
        exact ⟨.current, _, hreward, Or.inr ⟨reward, rfl⟩, fun _ => rfl⟩
      · refine ⟨.pending, v, (hadvances.pending v).mpr ⟨hv, hdue⟩, Or.inl rfl, ?_⟩
        rintro (hphase | hstart)
        · cases hphase
        · have hnext : v.nextTime ≤ time := hwaits.nextTime ▸ hstart
          exact absurd (UInt64.le_antisymm hnext (hadvances.within _ v hv)) hdue

/-- Where a staker was before time moved. -/
theorem Timely.origin (htimely : c.Timely) (hadvances : c.Advances time c')
    (ht : t ∈ c'.stakers phase) : ∃ phase' s, s ∈ c.stakers phase' ∧ s.Becomes t ∧
      (phase = .current → phase' = .current ∨ s.startTime = time) ∧
      (phase' = .current → phase = .current) := by
  cases phase with
  | pending =>
      refine ⟨.pending, t, ((hadvances.pending t).mp ht).1, Or.inl rfl, ?_, ?_⟩ <;>
        exact fun hphase => by cases hphase
  | current =>
      rcases hadvances.arrived t ht with ⟨ht, _⟩ | ⟨p, hp, hdue, reward, rfl⟩
      · exact ⟨.current, t, ht, Or.inl rfl, fun _ => Or.inl rfl, fun _ => rfl⟩
      · exact ⟨.pending, p, hp, Or.inr ⟨reward, rfl⟩,
          fun _ => Or.inr ((htimely.waits p hp).nextTime.symm.trans hdue), fun _ => rfl⟩

/-- A cover lasts while time moves, unless it is a permissioned validator that ends together with
the staker. -/
theorem Covers.advances {phase' : Phase} (htimely : c.Timely) (hadvances : c.Advances time c')
    (h : c.Covers slot phase' s) (hbecomes : s.Becomes t) (ht : t ∈ c'.stakers phase)
    (hphase : phase = .current → phase' = .current ∨ s.startTime = time) :
    c'.Covers slot phase t ∨ (phase = .current ∧ t.endTime = time ∧
      ∃ v ∈ c.stakers .current, v.slot = slot ∧ v.priority.isPermissioned = true) := by
  have hstart := hbecomes.startTime
  have hend := hbecomes.endTime
  obtain ⟨phase₀, v, hv, hvalidator, hslot, hstarts, hends, hcurrent⟩ := h
  rcases htimely.validator_advances hadvances hv with
    ⟨rfl, hexpires⟩ | ⟨phase₁, v', hv', hlater, hcurrent'⟩
  · -- The cover retires by itself, so its end, and with it that of the staker, has come.
    right
    have hover : t.endTime ≤ time := by
      rw [hend, ← hexpires.2, (htimely.serves v hv).nextTime]
      exact hends
    have htimely' := htimely.advances hadvances
    rw [hadvances.timestamp.symm] at hover ⊢
    cases phase with
    | pending =>
        exact absurd (htimely'.waits t ht).lt_endTime (UInt64.not_lt.mpr hover)
    | current =>
        exact ⟨rfl, UInt64.le_antisymm hover (htimely'.serves t ht).unfinished, v, hv, hslot,
          hexpires.1⟩
  · left
    refine ⟨phase₁, v', hv', ?_, hlater.slot.trans hslot, ?_, ?_, fun hnow => hcurrent' ?_⟩
    · change v'.priority.kind.isValidator = true
      rw [hlater.kind]
      exact hvalidator
    · rw [hlater.startTime, hstart]
      exact hstarts
    · rw [hlater.endTime, hend]
      exact hends
    · exact (hphase hnow).imp hcurrent fun (hdue : s.startTime = time) => hdue ▸ hstarts

/-! ## Claims -/

/-- A cover lasts through a claim, unless it is the claimed validator and comes no later than the
staker among those that end now. -/
theorem Covers.claimed {first : Staker} (htimely : c.Timely) (hclaimable : c.Claimable first)
    (hstakers : ∀ phase t, t ∈ c'.stakers phase ↔
      t ∈ c.stakers phase ∧ (phase = .current → t ≠ first))
    (h : c.Covers slot phase s) (hs : s ∈ c.stakers phase) :
    c'.Covers slot phase s ∨ (phase = .current ∧ first.isValidator = true ∧ first.slot = slot ∧
      first.priority.rank ≤ s.priority.rank) := by
  obtain ⟨phase₀, v, hv, hvalidator, hslot, hstarts, hends, hcurrent⟩ := h
  by_cases hself : phase₀ = .current ∧ v = first
  · right
    obtain ⟨rfl, rfl⟩ := hself
    rw [hclaimable.due] at hends
    -- A pending staker ends later, and a current one ends now and stands behind the first.
    cases phase with
    | pending =>
        exact absurd (htimely.waits s hs).lt_endTime (UInt64.not_lt.mpr hends)
    | current =>
        have hserves := htimely.serves s hs
        have htogether : v.nextTime = s.nextTime := by
          rw [(htimely.serves v hv).nextTime, hserves.nextTime, hclaimable.due]
          exact UInt64.le_antisymm hserves.unfinished hends
        exact ⟨rfl, hvalidator, hslot, StakerKey.rank_le (hclaimable.first s hs) htogether⟩
  · left
    exact ⟨phase₀, v, (hstakers _ v).mpr ⟨hv, fun hphase heq => hself ⟨hphase, heq⟩⟩, hvalidator,
      hslot, hstarts, hends, hcurrent⟩

/-! ## Every operation keeps the backing -/

/-- A validator of the primary network is no permissioned one. -/
theorem Backed.not_permissioned (h : c.Backed) (hv : v ∈ c.stakers phase)
    (hprimary : v.supernetId = .primaryNetwork) : v.priority.isPermissioned = false := by
  have hkind := (h.home phase v hv).mp hprimary
  unfold Priority.isPermissioned
  cases hv : v.priority.kind <;> rw [hv] at hkind <;> first | rfl | cases hkind

theorem Backed.advances (h : c.Backed) (htimely : c.Timely) (hadvances : c.Advances time c') :
    c'.Backed where
  untransformed := by rw [hadvances.transformation, h.untransformed]
  valid := by rw [hadvances.transformation]; exact h.valid
  home phase t ht := by
    obtain ⟨_, s, hs, hbecomes, _⟩ := htimely.origin hadvances ht
    rw [hbecomes.kind, hbecomes.supernetId]
    exact h.home _ s hs
  opened phase t ht hopen := by
    obtain ⟨_, s, hs, hbecomes, _⟩ := htimely.origin hadvances ht
    rw [hadvances.transformation, hbecomes.supernetId]
    exact h.opened _ s hs (hbecomes.kind ▸ hopen)
  primary phase t ht hneeds := by
    obtain ⟨_, s, hs, hbecomes, hphase, _⟩ := htimely.origin hadvances ht
    have hcovers := h.primary _ s hs (hbecomes.kind ▸ hneeds)
    rw [← hbecomes.nodeId] at hcovers
    rcases hcovers.advances htimely hadvances hbecomes ht hphase with
      hcovers | ⟨_, _, v, hv, hvslot, hpermissioned⟩
    · exact hcovers
    · rw [h.not_permissioned hv (congrArg Slot.supernetId hvslot)] at hpermissioned
      cases hpermissioned
  hosted phase t ht hdelegates := by
    obtain ⟨phase', s, hs, hbecomes, hphase, hcurrent⟩ := htimely.origin hadvances ht
    rw [hadvances.timestamp, hbecomes.slot]
    rcases h.hosted _ s hs (hbecomes.kind ▸ hdelegates) with hcovers | ⟨hnow, hover⟩
    · rcases hcovers.advances htimely hadvances hbecomes ht hphase with hcovers | ⟨hnow, hover, _⟩
      · exact Or.inl hcovers
      · exact Or.inr ⟨hnow, hover⟩
    · -- The period is over already, so time stands still until the staker is claimed.
      right
      obtain rfl := hcurrent hnow
      have hunfinished := ((htimely.advances hadvances).serves t ht).unfinished
      rw [hadvances.timestamp] at hunfinished
      refine ⟨rfl, UInt64.le_antisymm ?_ hunfinished⟩
      rw [hbecomes.endTime, hover]
      exact hadvances.ahead

theorem Backed.claimed {first : Staker} (h : c.Backed) (htimely : c.Timely)
    (hclaimable : c.Claimable first) (htime : c'.timestamp = c.timestamp)
    (hstakers : ∀ phase t, t ∈ c'.stakers phase ↔
      t ∈ c.stakers phase ∧ (phase = .current → t ≠ first))
    (htransformation : c'.transformation = c.transformation) : c'.Backed where
  untransformed := by rw [htransformation, h.untransformed]
  valid := by rw [htransformation]; exact h.valid
  home phase s hs := h.home phase s ((hstakers phase s).mp hs).1
  opened phase s hs := htransformation ▸ h.opened phase s ((hstakers phase s).mp hs).1
  primary phase s hs hneeds := by
    have hs := ((hstakers phase s).mp hs).1
    rcases (h.primary phase s hs hneeds).claimed htimely hclaimable hstakers hs with
      hcovers | ⟨rfl, hvalidator, hslot, hrank⟩
    · exact hcovers
    · -- Among those that end now the primary validator comes last.
      have hprimary := (h.home _ first hclaimable.current).mp (congrArg Slot.supernetId hslot)
      rw [(htimely.serves first hclaimable.current).priority, (htimely.serves s hs).priority,
        StakerKind.eq_primaryValidator hprimary hvalidator] at hrank
      exact absurd (StakerKind.rank_lt_of_needsPrimary hneeds) (Nat.not_lt.mpr hrank)
  hosted phase s hs hdelegates := by
    have hs := ((hstakers phase s).mp hs).1
    rw [htime]
    rcases h.hosted phase s hs hdelegates with hcovers | hover
    · rcases hcovers.claimed htimely hclaimable hstakers hs with
        hcovers | ⟨rfl, hvalidator, hslot, hrank⟩
      · exact Or.inl hcovers
      · -- A delegator comes before the validator of its slot, which is no permissioned one.
        have hsame : first.supernetId = s.supernetId := congrArg Slot.supernetId hslot
        have hother : first.priority.kind.isPrimary = false := by
          rw [← Bool.not_eq_true, ← h.home _ first hclaimable.current, hsame, h.home _ s hs,
            hdelegates]
          decide
        have hrewarded : first.priority.kind ≠ .permissionedValidator := by
          simpa [Priority.isPermissioned] using hclaimable.rewarded
        rw [(htimely.serves first hclaimable.current).priority, (htimely.serves s hs).priority,
          hdelegates, StakerKind.eq_permissionlessValidator hother hvalidator hrewarded] at hrank
        exact absurd hrank (by decide)
    · exact Or.inr hover

/-- Without the stakers or the time changing it is enough that supernets stay transformed. -/
theorem Backed.of_stakers (h : c.Backed) (htime : c'.timestamp = c.timestamp)
    (hstakers : c'.stakers = c.stakers)
    (huntransformed : c'.transformation .primaryNetwork = .ok none)
    (hvalid : ∀ supernet t, c'.transformation supernet = .ok (some t) →
      t.staking.validate = .ok ())
    (hopened : ∀ supernet t, c.transformation supernet = .ok (some t) →
      ∃ t, c'.transformation supernet = .ok (some t)) : c'.Backed := by
  have hcovers : ∀ {slot phase s}, c.Covers slot phase s → c'.Covers slot phase s :=
    fun hcovers => hcovers.mono fun phase t ht => hstakers ▸ ht
  refine ⟨huntransformed, hvalid, hstakers ▸ h.home, fun phase s hs hopen => ?_,
    fun phase s hs hneeds => ?_, fun phase s hs hdelegates => ?_⟩ <;> rw [hstakers] at hs
  · obtain ⟨t, ht⟩ := h.opened phase s hs hopen
    exact hopened _ t ht
  · exact hcovers (h.primary phase s hs hneeds)
  · rw [htime]
    exact (h.hosted phase s hs hdelegates).imp_left hcovers

theorem Backed.transformed {t : SupernetTransformation} (h : c.Backed)
    (hother : t.supernetId ≠ .primaryNetwork) (hvalid : t.staking.validate = .ok ())
    (htime : c'.timestamp = c.timestamp) (hstakers : c'.stakers = c.stakers)
    (htransformation : c'.transformation =
      Function.update c.transformation t.supernetId (.ok (some t))) : c'.Backed := by
  refine h.of_stakers htime hstakers ?_ (fun supernet t' ht' => ?_) fun supernet t' ht' => ?_ <;>
    rw [htransformation] at *
  · rw [Function.update_of_ne hother.symm, h.untransformed]
  all_goals by_cases hself : supernet = t.supernetId
  · rw [hself, Function.update_self] at ht'
    cases ht'
    exact hvalid
  · rw [Function.update_of_ne hself] at ht'
    exact h.valid supernet t' ht'
  · exact ⟨t, by rw [hself, Function.update_self]⟩
  · exact ⟨t', by rw [Function.update_of_ne hself, ht']⟩

end Contents

namespace Ledger

/-- The period of a staker that a validator encloses. -/
theorem encloses_iff {validator : Staker} {tx : StakerTx} : encloses validator tx = true ↔
    validator.startTime ≤ tx.startTime ∧ tx.endTime ≤ validator.endTime := by
  rw [encloses, Bool.and_eq_true, decide_eq_true_iff, decide_eq_true_iff]

/-- A validator that was found for a joining staker covers it. -/
theorem Upholds.covers_of_lodges (h : l.Upholds c) {tx : StakerTx} (hlodges : l.Lodges slot tx v) :
    c.Covers slot .pending (pendingStaker tx) := by
  obtain ⟨⟨phase, hread⟩, hencloses⟩ := hlodges
  obtain ⟨hv, hvalidator, hslot⟩ := spec_of_occupant (h.validator_eq_ok_iff.mp hread)
  obtain ⟨hstarts, hends⟩ := encloses_iff.mp hencloses
  exact ⟨phase, v, hv, hvalidator, hslot, hstarts, hends, fun hphase => by cases hphase⟩

/-- A kind of the primary network joins there, and any other kind does not. -/
theorem Upholds.home_of_joins (h : l.Upholds c) (hbacked : c.Backed) {tx : StakerTx}
    {rules : Option StakingConfig} (hjoins : l.Joins config tx rules) :
    tx.supernetId = .primaryNetwork ↔ tx.kind.isPrimary = true := by
  cases hjoins with
  | primary hkind hsupernet =>
      refine iff_of_true hsupernet ?_
      rcases hkind with hkind | hkind <;> rw [hkind] <;> rfl
  | permissionless hkind ht =>
      refine iff_of_false (fun hsupernet => ?_) ?_
      · rw [h.transformation_eq, hsupernet, hbacked.untransformed] at ht
        cases ht
      · rcases hkind with hkind | hkind <;> rw [hkind] <;> decide
  | permissioned hkind hsupernet => exact iff_of_false hsupernet (by rw [hkind]; decide)

theorem Upholds.opened_of_joins (h : l.Upholds c) {tx : StakerTx} {rules : Option StakingConfig}
    (hjoins : l.Joins config tx rules) (hopen : tx.kind.isPermissionless = true) :
    ∃ t, c.transformation tx.supernetId = .ok (some t) := by
  cases hjoins with
  | primary hkind => rcases hkind with hkind | hkind <;> rw [hkind] at hopen <;> cases hopen
  | @permissionless t _ ht => exact ⟨t, (h.transformation_eq _).symm.trans ht⟩
  | permissioned hkind =>
      rw [hkind] at hopen
      cases hopen

/-- A staker that depends on the primary validator of its node was admitted under its cover. -/
theorem Upholds.covers_of_admits (h : l.Upholds c) (hbacked : c.Backed) {tx : StakerTx}
    {rules : Option StakingConfig} (hadmits : l.Admits config tx rules)
    (hneeds : tx.kind.needsPrimary = true) :
    c.Covers ⟨.primaryNetwork, tx.nodeId⟩ .pending (pendingStaker tx) := by
  have hhome := h.home_of_joins hbacked hadmits.joins
  cases hvalidator : tx.kind.isValidator with
  | true =>
      -- Of the validators those of supernets depend on one.
      have hother : tx.supernetId ≠ .primaryNetwork := fun hsupernet => by
        rw [StakerKind.eq_primaryValidator (hhome.mp hsupernet) hvalidator] at hneeds
        cases hneeds
      obtain ⟨primary, hlodges⟩ := hadmits.backed hvalidator hother
      exact h.covers_of_lodges hlodges
  | false =>
      have hprimary := StakerKind.isPrimary_of_needsPrimary hneeds hvalidator
      obtain ⟨host, _, _, _, hlodges, _⟩ := hadmits.hosted hvalidator
      exact hhome.mpr hprimary ▸ h.covers_of_lodges hlodges

/-- A staker that was admitted has the validators that it depends on. -/
theorem Upholds.backed_enroll (h : l.Upholds c) (hbacked : c.Backed) {tx : StakerTx}
    {rules : Option StakingConfig} (hadmits : l.Admits config tx rules)
    (htime : c'.timestamp = c.timestamp)
    (hstakers : ∀ phase s, s ∈ c'.stakers phase ↔
      (phase = .pending ∧ s = pendingStaker tx) ∨ s ∈ c.stakers phase)
    (htransformation : c'.transformation = c.transformation) : c'.Backed := by
  have hsub : ∀ phase, ∀ s ∈ c.stakers phase, s ∈ c'.stakers phase :=
    fun phase s hs => (hstakers phase s).mpr (Or.inr hs)
  have hkind : (pendingStaker tx).priority.kind = tx.kind := Priority.kind_pending tx.kind
  refine ⟨by rw [htransformation, hbacked.untransformed], htransformation ▸ hbacked.valid,
    fun phase s hs => ?_, fun phase s hs hopen => ?_, fun phase s hs hneeds => ?_,
    fun phase s hs hdelegates => ?_⟩
  all_goals rcases (hstakers phase s).mp hs with ⟨rfl, rfl⟩ | hs
  · rw [hkind]
    exact h.home_of_joins hbacked hadmits.joins
  · exact hbacked.home phase s hs
  · rw [htransformation]
    exact h.opened_of_joins hadmits.joins (hkind ▸ hopen)
  · exact htransformation ▸ hbacked.opened phase s hs hopen
  · exact (h.covers_of_admits hbacked hadmits (hkind ▸ hneeds)).mono hsub
  · exact (hbacked.primary phase s hs hneeds).mono hsub
  · rw [hkind] at hdelegates
    obtain ⟨host, _, _, _, hlodges, _⟩ := hadmits.hosted (by rw [hdelegates]; rfl)
    exact Or.inl ((h.covers_of_lodges hlodges).mono hsub)
  · rw [htime]
    exact (hbacked.hosted phase s hs hdelegates).imp_left (·.mono hsub)

/-- Every operation keeps the backing. -/
theorem Upholds.backed (h : l.Upholds c) (htimely : c.Timely) (hbacked : c.Backed)
    (hmoves : l.Moves configs c writes) : (c.writeAll writes).Backed := by
  cases hmoves with
  | unmoved htime hstakers htransformation =>
      refine hbacked.of_stakers htime hstakers ?_ ?_ fun _ t ht => ⟨t, ?_⟩ <;>
        rw [htransformation]
      · exact hbacked.untransformed
      · exact hbacked.valid
      · exact ht
  | transformed hother _ hvalid htime hstakers htransformation =>
      exact hbacked.transformed hother hvalid htime hstakers htransformation
  | enrolled _ _ hadmits htime hstakers htransformation =>
      exact h.backed_enroll hbacked hadmits htime hstakers htransformation
  | advanced _ _ _ hadvances => exact hbacked.advances htimely hadvances
  | claimed hclaimable htime hstakers htransformation =>
      exact hbacked.claimed htimely hclaimable htime hstakers htransformation

theorem Runs.backed (h : Runs configs g config l) :
    ∃ c, l.Upholds c ∧ c.Timely ∧ c.Backed :=
  h.invariant (fun r _ => ⟨Contents.timely_genesis r, Contents.backed_genesis r⟩)
    fun hupholds ⟨htimely, hbacked⟩ hperforms =>
      have hmoves := hupholds.moves hperforms
      ⟨hupholds.timely htimely hmoves, hupholds.backed htimely hbacked hmoves⟩

end Ledger

end StakingLedger
