import Mathlib.Tactic.Ring
import StakingLedger.Proofs.Operator.Step
import StakingLedger.Proofs.Registry.Trading

/-! # Progress of the operator

A step that claims takes one staker out of the current set. A step that moves time
takes the promoted out of the pending set and puts as many into the current one, it
takes out the retired, and where nobody changes phase it brings time forward. So
every step makes the figure smaller that bounds the steps left. Of the registries
no more is asked than that no transaction stakes twice.
-/

namespace StakingLedger

open TimeAdvance

/-- The whole sets list these stakers, no two of them of one transaction. -/
structure State.ListsOnce (s : State) (members : Phase → Set Staker) : Prop where
  lists : ∀ phase, (s.registries.get phase).Lists (members phase)
  injOn : ∀ phase, (members phase).InjOn Staker.txId
  apart : ∀ x ∈ members .current, ∀ y ∈ members .pending, y.txId ≠ x.txId

/-- The writes delete these stakers from each phase and put the promoted into the current one. -/
structure Shift (members : Phase → Set Staker) (gone : Phase → Set Staker) (arrived : Set Staker)
    (writes : List Write) : Prop where
  puts : ∀ phase, ∀ w ∈ writes, ∀ x, w.Puts phase x → phase = .current ∧ x ∈ arrived
  deletes : ∀ phase x, (∃ w ∈ writes, w.Deletes phase x) ↔ x ∈ gone phase
  present : ∀ phase, gone phase ⊆ members phase
  promoted : ∀ y ∈ arrived, ∃ x ∈ gone .pending, x.txId = y.txId
  injOn : arrived.InjOn Staker.txId

variable {s s' : State} {members gone : Phase → Set Staker} {arrived : Set Staker}
  {writes : List Write} {l l' : Ledger} {rewards : RewardPolicy} {target : UInt64} {paid : Bool}
  {x : Staker} {phase : Phase} {stakerTx : EntityId} {plan : TimeAdvance} {time : UInt64}

theorem Rewards.leavesStakers (h : Rewards stakerTx x l writes) {w : Write} (hw : w ∈ writes) :
    w.LeavesStakers := by
  cases h with
  | nothing => cases hw
  | paid => rcases List.mem_pair.mp hw with rfl | rfl <;> trivial
  | forfeited =>
      rw [List.mem_singleton.mp hw]
      trivial

/-! ## The fresh layer -/

theorem RegistryOverlay.all_untouched (parent : StakerSeq) :
    ({} : RegistryOverlay).all parent = parent := by
  cases parent <;> rfl

theorem State.stakers_opened (s : State) (phase : Phase) :
    s.opened.stakers phase = .ok (s.registries.get phase).all := by
  cases phase <;> exact congrArg Except.ok (RegistryOverlay.all_untouched _)

namespace State.ListsOnce

theorem enumerates (h : s.ListsOnce members) {sequence : StakerSeq}
    (hread : s.opened.stakers phase = .ok sequence) :
    Enumerates sequence.toList Staker.key (members phase) := by
  rw [stakers_opened] at hread
  cases hread
  exact (h.lists phase).enumerates_ofTree

theorem mem_dueBy (h : s.ListsOnce members) {sequence : StakerSeq}
    (hread : s.opened.stakers phase = .ok sequence) (hx : x ∈ Ledger.dueBy sequence time) :
    x ∈ members phase :=
  ((h.enumerates hread).mem_iff x).mp ((List.takeWhile_sublist _).subset hx)

/-! ## What a claim does -/

theorem shift_claim (h : s.ListsOnce members) (hclaimed : s.opened.claimedStaker stakerTx = .ok x)
    (hrewards : Rewards stakerTx x l writes) :
    Shift members (fun phase => {y | phase = .current ∧ y = x}) ∅
      (.delete .current x :: writes) := by
  refine ⟨fun phase w hw y hy => ?_, fun phase y => ?_, fun phase y hy => ?_, nofun, nofun⟩
  · rcases List.mem_cons.mp hw with rfl | hw
    · exact absurd hy (Write.not_puts_delete .current x)
    · exact absurd hy ((hrewards.leavesStakers hw).spares phase y).1
  · constructor
    · rintro ⟨w, hw, hy⟩
      rcases List.mem_cons.mp hw with rfl | hw
      · exact Write.eq_of_deletes_delete hy
      · exact absurd hy ((hrewards.leavesStakers hw).spares phase y).2
    · rintro ⟨rfl, rfl⟩
      exact ⟨_, List.mem_cons_self, Write.deletes_delete .current y⟩
  · obtain ⟨rfl, rfl⟩ := hy
    obtain ⟨_, _, _, held, hheld, hfirst⟩ := Ledger.of_claimedStaker hclaimed
    change (s.opened.stakers .current).map StakerSeq.walkAll = .ok held at hheld
    obtain ⟨sequence, hread, rfl⟩ := map_eq_ok_iff.mp hheld
    rw [sequence.walkAll_eq_toList] at hfirst
    exact ((h.enumerates hread).mem_iff y).mp (List.mem_of_head? hfirst)

end State.ListsOnce

/-! ## What a move of time does -/

theorem TimeAdvance.puts_of_mem_promotionWrites {p : Promotion} {w : Write}
    (hw : w ∈ promotionWrites p) (hputs : w.Puts phase x) : phase = .current ∧ x = p.current := by
  unfold promotionWrites at hw
  split at hw <;> rcases List.mem_pair.mp hw with rfl | rfl <;> rcases hputs with h | h <;>
    cases h <;> exact ⟨rfl, rfl⟩

theorem TimeAdvance.deletes_of_mem_promotionWrites {p : Promotion} {w : Write}
    (hw : w ∈ promotionWrites p) (hdeletes : w.Deletes phase x) :
    phase = .pending ∧ x = p.pending := by
  unfold promotionWrites at hw
  split at hw <;> rcases List.mem_pair.mp hw with rfl | rfl <;> rcases hdeletes with h | h <;>
    cases h <;> exact ⟨rfl, rfl⟩

theorem TimeAdvance.exists_deletes_promotionWrites (p : Promotion) :
    ∃ w ∈ promotionWrites p, w.Deletes .pending p.pending := by
  unfold promotionWrites
  split
  · exact ⟨_, List.mem_cons_self, Or.inl rfl⟩
  · exact ⟨_, List.mem_cons_self, Or.inr rfl⟩

theorem TimeAdvance.leavesStakers_of_mem_balanceWrites {w : Write}
    (hw : w ∈ plan.balanceWrites) : w.LeavesStakers := by
  simp only [balanceWrites, List.mem_append, List.mem_map, List.mem_singleton] at hw
  rcases hw with (⟨_, _, rfl⟩ | ⟨_, _, rfl⟩) | rfl <;> trivial

/-- A plan puts nobody but those it promotes, into the current set. -/
theorem TimeAdvance.puts_of_mem_writes {w : Write} (hw : w ∈ plan.writes) (hputs : w.Puts phase x) :
    phase = .current ∧ x ∈ plan.promotions.map Promotion.current := by
  rcases mem_writes_iff.mp hw with ⟨p, hp, hw⟩ | ⟨r, _, rfl⟩ | hw
  · obtain ⟨rfl, rfl⟩ := puts_of_mem_promotionWrites hw hputs
    exact ⟨rfl, List.mem_map_of_mem hp⟩
  · exact absurd hputs (Write.not_puts_delete .current r)
  · exact absurd hputs ((leavesStakers_of_mem_balanceWrites hw).spares phase x).1

/-- A plan deletes those it promotes where they wait, and those it retires where they are. -/
theorem TimeAdvance.deletes_writes_iff (plan : TimeAdvance) (phase : Phase) (x : Staker) :
    (∃ w ∈ plan.writes, w.Deletes phase x) ↔ match phase with
      | .current => x ∈ plan.retirements
      | .pending => x ∈ plan.promotions.map Promotion.pending := by
  constructor
  · rintro ⟨w, hw, hdeletes⟩
    rcases mem_writes_iff.mp hw with ⟨p, hp, hw⟩ | ⟨r, hr, rfl⟩ | hw
    · obtain ⟨rfl, rfl⟩ := deletes_of_mem_promotionWrites hw hdeletes
      exact List.mem_map_of_mem hp
    · obtain ⟨rfl, rfl⟩ := Write.eq_of_deletes_delete hdeletes
      exact hr
    · exact absurd hdeletes ((leavesStakers_of_mem_balanceWrites hw).spares phase x).2
  · intro hx
    cases phase with
    | current =>
        exact ⟨_, mem_writes_iff.mpr (Or.inr (Or.inl ⟨x, hx, rfl⟩)), Write.deletes_delete .current x⟩
    | pending =>
        obtain ⟨p, hp, rfl⟩ := List.mem_map.mp hx
        obtain ⟨w, hw, hdeletes⟩ := exists_deletes_promotionWrites p
        exact ⟨w, mem_writes_iff.mpr (Or.inl ⟨p, hp, hw⟩), hdeletes⟩

theorem State.ListsOnce.shift_plan (h : s.ListsOnce members)
    (hplan : s.opened.planAdvance rewards time = .ok plan) :
    Shift members
      (fun phase => {x | match phase with
        | .current => x ∈ plan.retirements
        | .pending => x ∈ plan.promotions.map Promotion.pending})
      {x | x ∈ plan.promotions.map Promotion.current} plan.writes := by
  obtain ⟨pending, current, hpending, hcurrent, hplans, hretirements⟩ :=
    Ledger.plans_of_planAdvance hplan
  have hmoved : ∀ x ∈ plan.promotions.map Promotion.pending, x ∈ members .pending := by
    intro x hx
    rw [hplans.pending] at hx
    exact h.mem_dueBy hpending hx
  have hpromotable : (s.settled members).Promotable plan.promotions :=
    { waiting := fun p hp => hmoved _ (List.mem_map_of_mem hp)
      apart := by
        rw [hplans.pending]
        exact (h.enumerates hpending).nodup.sublist (List.takeWhile_sublist _)
      promotes := hplans.promotes }
  refine ⟨fun phase w hw y hy => puts_of_mem_writes hw hy,
    fun phase y => deletes_writes_iff plan phase y, fun phase y hy => ?_, fun y hy => ?_, ?_⟩
  · cases phase with
    | current =>
        change y ∈ plan.retirements at hy
        rw [hretirements] at hy
        exact h.mem_dueBy hcurrent (List.mem_filter.mp hy).1
    | pending => exact hmoved y hy
  · obtain ⟨p, hp, rfl⟩ := List.mem_map.mp hy
    exact ⟨p.pending, List.mem_map_of_mem hp, (hplans.promotes p hp).txId_eq.symm⟩
  · intro y hy z hz heq
    obtain ⟨p, hp, rfl⟩ := List.mem_map.mp hy
    obtain ⟨q, hq, rfl⟩ := List.mem_map.mp hz
    rw [hpromotable.eq_of_txId (h.injOn .pending) hp hq heq]

/-! ## What folding leaves -/

/-- Writes that set no other time keep the time. -/
theorem State.timestamp_writeAll (h : ∀ time, .setTimestamp time ∈ writes → time = s.timestamp) :
    (s.writeAll writes).timestamp = s.timestamp := by
  induction writes generalizing s with
  | nil => rfl
  | cons w rest ih =>
      have hfirst : (s.write w).timestamp = s.timestamp := by
        cases w with
        | setTimestamp time => exact h time List.mem_cons_self
        | _ => rfl
      refine (ih fun time htime => ?_).trans hfirst
      rw [hfirst]
      exact h time (List.mem_cons_of_mem _ htime)

theorem State.timestamp_fold (s : State) (c : Changes) : (s.fold c).timestamp = c.timestamp :=
  State.timestamp_writeAll (s := s.write (.setTimestamp c.timestamp)) fun _ htime =>
    Changes.time_of_mem_writes (List.mem_cons_of_mem _ htime)

namespace Shift

theorem apart (hshift : Shift members gone arrived writes) (h : s.ListsOnce members) :
    ∀ x ∈ members .current, ∀ y ∈ arrived, y.txId ≠ x.txId := by
  intro x hx y hy
  obtain ⟨z, hz, heq⟩ := hshift.promoted y hy
  rw [← heq]
  exact h.apart x hx z (hshift.present .pending hz)

theorem kept_eq (hshift : Shift members gone arrived writes) (phase : Phase) :
    {x | x ∈ members phase ∧ ∀ w ∈ writes, ¬ w.Deletes phase x} =
      members phase \ gone phase := by
  ext x
  refine and_congr_right fun _ => ?_
  rw [← hshift.deletes phase x]
  constructor
  · rintro hkept ⟨w, hw, hdeletes⟩
    exact hkept w hw hdeletes
  · intro hkept w hw hdeletes
    exact hkept ⟨w, hw, hdeletes⟩

/-- After the fold the gone are gone, and the promoted have joined the current set. -/
theorem fold (hshift : Shift members gone arrived writes) (h : s.ListsOnce members)
    (timestamp feePool : UInt64) :
    ∃ members', (s.fold (writes.foldl Changes.write
        (.untouched timestamp feePool))).ListsOnce members' ∧
      members' .pending ⊆ members .pending \ gone .pending ∧
      members' .current ⊆ (members .current \ gone .current) ∪ arrived := by
  have hapart := hshift.apart h
  have hdeletes : ∀ phase, ∀ w ∈ writes, ∀ x, w.Deletes phase x → x ∈ members phase :=
    fun phase w hw x hx => hshift.present phase ((hshift.deletes phase x).mp ⟨w, hw, hx⟩)
  have hno_puts : ∀ w ∈ writes, ∀ x, w.Puts .pending x → x ∈ (∅ : Set Staker) :=
    fun w hw x hx => by cases (hshift.puts .pending w hw x hx).1
  obtain ⟨pending, hpending, hstay⟩ := State.lists_fold (h.lists .pending) hno_puts (hdeletes .pending)
    (h.injOn .pending) (Set.injOn_empty _) (fun _ _ _ hy => hy.elim) timestamp feePool
  obtain ⟨current, hcurrent, hmove⟩ := State.lists_fold (h.lists .current)
    (fun w hw x hx => (hshift.puts .current w hw x hx).2) (hdeletes .current)
    (h.injOn .current) hshift.injOn hapart timestamp feePool
  rw [hshift.kept_eq, Set.union_empty] at hstay
  rw [hshift.kept_eq] at hmove
  refine ⟨fun | .current => current | .pending => pending, ⟨fun phase => ?_, fun phase => ?_, ?_⟩,
    hstay, hmove⟩
  · cases phase with
    | current => exact hcurrent
    | pending => exact hpending
  · cases phase with
    | current =>
        apply Set.InjOn.mono hmove
        apply injOn_txId_union ((h.injOn .current).mono Set.sdiff_subset) hshift.injOn
        intro x hx y hy
        exact hapart x hx.1 y hy
    | pending => exact (h.injOn .pending).mono fun x hx => (hstay hx).1
  · intro x hx y hy
    rcases hmove hx with hx | hx
    · exact h.apart x hx.1 y (hstay hy).1
    · -- Whoever was promoted left the pending set.
      obtain ⟨z, hz, heq⟩ := hshift.promoted x hx
      intro hsame
      have hleft := h.injOn .pending (hstay hy).1 (hshift.present .pending hz)
        (hsame.trans heq.symm)
      exact (hstay hy).2 (hleft ▸ hz)

end Shift

/-! ## The figure that falls -/

/-- Of the pending stakers `k` are promoted, and of the current ones `r` retire. -/
theorem measure_lt {t t' p p' c c' k r : Nat} (ht : t' ≤ t) (hp : p' + k ≤ p)
    (hc : c' + r ≤ c + k) (hprogress : t' < t ∨ 0 < k ∨ 0 < r) :
    t' + c' + p' * (p' + 2) < t + c + p * (p + 2) := by
  have hpending : (p' + k) * (p' + k + 2) ≤ p * (p + 2) := Nat.mul_le_mul hp (by omega)
  have hself : k ≤ k * k := Nat.le_mul_self k
  have hsplit : (p' + k) * (p' + k + 2) = p' * (p' + 2) + (2 * (p' * k) + k * k + 2 * k) := by ring
  omega

theorem Changes.timestamp_claim {writes : List Write} (hrewards : Rewards stakerTx x l writes)
    (c : Changes) : ((Write.delete .current x :: writes).foldl Changes.write c).timestamp =
      c.timestamp := by
  have hdelete : (c.write (.delete .current x)).timestamp = c.timestamp := by
    unfold Write.delete
    split <;> rfl
  rw [← hdelete]
  cases hrewards <;> rfl

theorem Changes.timestamp_plan (plan : TimeAdvance) (c : Changes) :
    (plan.writes.foldl Changes.write c).timestamp = plan.timestamp := by
  rw [TimeAdvance.writes, List.foldl_append]
  rfl

/-- What a step writes to its layer: it moves stakers, and time within bounds, and something
comes of it. -/
theorem State.StepsOn.exists_shift {changes : Changes} {tip : EntityId} (h : s.ListsOnce members)
    (htarget : s.timestamp ≤ target)
    (hsteps : s.StepsOn rewards target paid s.opened (.layer (.root s) tip true changes)) :
    ∃ writes gone arrived,
      changes = writes.foldl Changes.write (.untouched s.timestamp s.feePool) ∧
        Shift members gone arrived writes ∧
        s.timestamp ≤ changes.timestamp ∧ changes.timestamp ≤ target ∧
        (s.timestamp < changes.timestamp ∨ ∃ phase, (gone phase).Nonempty) := by
  cases hsteps with
  | rewarded hrun =>
      obtain ⟨x, writes, hclaimed, hrewards, hafter⟩ := rewards_of_rewardStaker hrun
      rw [opened, Ledger.writeAll_layer] at hafter
      cases hafter
      have htime := Changes.timestamp_claim hrewards (.untouched s.timestamp s.feePool)
      refine ⟨_, _, _, rfl, h.shift_claim hclaimed hrewards, ?_, ?_,
        Or.inr ⟨.current, x, rfl, rfl⟩⟩
      · rw [htime]
        exact UInt64.le_refl _
      · rw [htime]
        exact htarget
  | @advanced time plan hbound hverify hplan hprogress hafter =>
      rw [Ledger.applyAdvance, opened, Ledger.writeAll_layer] at hafter
      cases hafter
      obtain ⟨_, _, _, _, hplans, _⟩ := Ledger.plans_of_planAdvance hplan
      have htime := (Changes.timestamp_plan plan (.untouched s.timestamp s.feePool)).trans
        hplans.timestamp
      refine ⟨_, _, _, rfl, h.shift_plan hplan, ?_, ?_, ?_⟩
      · rw [htime]
        unfold Ledger.verifyAdvance at hverify
        dsimp only at hverify
        split at hverify
        · cases hverify
        next hahead => exact UInt64.not_lt.mp hahead
      · rw [htime]
        exact hbound
      · rw [htime]
        rcases hprogress with hlater | hpromotes | hretires
        · exact Or.inl hlater
        · obtain ⟨p, rest, heq⟩ := List.exists_cons_of_ne_nil hpromotes
          refine Or.inr ⟨.pending, p.pending, List.mem_map_of_mem ?_⟩
          rw [heq]
          exact List.mem_cons_self
        · obtain ⟨r, rest, heq⟩ := List.exists_cons_of_ne_nil hretires
          refine Or.inr ⟨.current, r, ?_⟩
          change r ∈ plan.retirements
          rw [heq]
          exact List.mem_cons_self

/-- No more stakers are promoted than leave the pending set. -/
theorem Shift.ncard_arrived_le (hshift : Shift members gone arrived writes)
    (hfinite : (members .pending).Finite) :
    arrived.Finite ∧ arrived.ncard ≤ (gone .pending).ncard := by
  have hgone : (gone .pending).Finite := hfinite.subset (hshift.present .pending)
  have hsub : Staker.txId '' arrived ⊆ Staker.txId '' gone .pending := by
    intro id hid
    obtain ⟨y, hy, rfl⟩ := hid
    obtain ⟨x, hx, heq⟩ := hshift.promoted y hy
    exact ⟨x, hx, heq⟩
  refine ⟨Set.Finite.of_finite_image ((hgone.image _).subset hsub) hshift.injOn, ?_⟩
  calc
    arrived.ncard = (Staker.txId '' arrived).ncard := hshift.injOn.ncard_image.symm
    _ ≤ (Staker.txId '' gone .pending).ncard := Set.ncard_le_ncard hsub (hgone.image _)
    _ ≤ (gone .pending).ncard := Set.ncard_image_le hgone

/-- How large the sets are after a shift, those that have gone counted in. -/
theorem Shift.ncard_le {members' : Phase → Set Staker}
    (hshift : Shift members gone arrived writes) (hfinite : ∀ phase, (members phase).Finite)
    (hpending : members' .pending ⊆ members .pending \ gone .pending)
    (hcurrent : members' .current ⊆ (members .current \ gone .current) ∪ arrived) :
    (members' .pending).ncard + (gone .pending).ncard ≤ (members .pending).ncard ∧
      (members' .current).ncard + (gone .current).ncard ≤
        (members .current).ncard + (gone .pending).ncard := by
  have hleft : ∀ phase, (members phase \ gone phase).ncard + (gone phase).ncard =
      (members phase).ncard := fun phase =>
    Set.ncard_sdiff_add_ncard_of_subset (hshift.present phase) (hfinite phase)
  obtain ⟨harrived, hfewer⟩ := hshift.ncard_arrived_le (hfinite .pending)
  constructor
  · have hle := Set.ncard_le_ncard hpending (hfinite .pending).sdiff
    have hsum := hleft .pending
    omega
  · have hle := Set.ncard_le_ncard hcurrent ((hfinite .current).sdiff.union harrived)
    have hunion := Set.ncard_union_le (members .current \ gone .current) arrived
    have hsum := hleft .current
    omega

/-- A step leaves the sets without doubles, keeps time within bounds and brings the end nearer. -/
theorem State.StepsOn.progress {changes : Changes} {tip : EntityId} (h : s.ListsOnce members)
    (htarget : s.timestamp ≤ target)
    (hsteps : s.StepsOn rewards target paid s.opened (.layer (.root s) tip true changes)) :
    (∃ members', (s.fold changes).ListsOnce members') ∧
      s.timestamp ≤ (s.fold changes).timestamp ∧ (s.fold changes).timestamp ≤ target ∧
      (s.fold changes).stepsLeft target < s.stepsLeft target := by
  obtain ⟨writes, gone, arrived, hchanges, hshift, hahead, hwithin, hprogress⟩ :=
    hsteps.exists_shift h htarget
  obtain ⟨members', h', hpending, hcurrent⟩ := hshift.fold h s.timestamp s.feePool
  rw [← hchanges] at h'
  have htime := s.timestamp_fold changes
  refine ⟨⟨members', h'⟩, htime ▸ hahead, htime ▸ hwithin, ?_⟩
  have hfinite : ∀ phase, (members phase).Finite := fun phase => (h.lists phase).finite
  have hsize : ∀ phase, (s.registries.get phase).size = (members phase).ncard :=
    fun phase => (h.lists phase).size_eq_ncard
  have hsize' : ∀ phase, ((s.fold changes).registries.get phase).size = (members' phase).ncard :=
    fun phase => (h'.lists phase).size_eq_ncard
  obtain ⟨hp, hc⟩ := hshift.ncard_le hfinite hpending hcurrent
  have hfalls : target.toNat - (s.fold changes).timestamp.toNat <
        target.toNat - s.timestamp.toNat ∨
      0 < (gone .pending).ncard ∨ 0 < (gone .current).ncard := by
    rcases hprogress with hlater | ⟨phase, hphase⟩
    · have hlt := UInt64.lt_iff_toNat_lt.mp hlater
      have hle := UInt64.le_iff_toNat_le.mp hwithin
      refine Or.inl ?_
      rw [htime]
      omega
    · have hpositive := (Set.ncard_pos ((hfinite phase).subset (hshift.present phase))).mpr hphase
      cases phase with
      | current => exact Or.inr (Or.inr hpositive)
      | pending => exact Or.inr (Or.inl hpositive)
  have htimes : target.toNat - (s.fold changes).timestamp.toNat ≤
      target.toNat - s.timestamp.toNat := by
    have hle := UInt64.le_iff_toNat_le.mp hahead
    rw [htime]
    omega
  have hmeasure := measure_lt htimes hp hc hfalls
  rw [← hsize, ← hsize, ← hsize', ← hsize'] at hmeasure
  exact hmeasure

end StakingLedger
