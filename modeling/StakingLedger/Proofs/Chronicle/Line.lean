import StakingLedger.Proofs.Chronicle.Calls
import StakingLedger.Proofs.Operation.Reopening
import StakingLedger.Proofs.Operation.Script

/-! # Chronicles with reloads

A chronicle follows the ledger on top of a stack through calls, failed ones
included, and through folds, commits and reloads in any order. It has the line of
ledgers that led there, and the line up to the last commit. A reload takes up the
latter, so what was not committed drops out of the line.
-/

namespace StakingLedger

namespace Ledger

variable {configs : Set StakingConfig} {g : Genesis} {config : StakingConfig}
  {kept past : List Ledger} {l l' : Ledger} {c : Contents}

/-- One step of the ledger on top. A call may be rejected or fail halfway. -/
inductive Acts (configs : Set StakingConfig) : Ledger → Ledger → Prop
  | applied {l : Ledger} {config : StakingConfig} (tx : StoredTx) (hconfig : config ∈ configs) :
    Acts configs l ((applyTx tx config).run l).2
  | advanced {l : Ledger} {rewards : RewardPolicy} {time : UInt64} {plan : TimeAdvance}
    (hverify : l.verifyAdvance time = .ok ()) (hplan : l.planAdvance rewards time = .ok plan) :
    Acts configs l (l.applyAdvance plan)
  | claimed {l : Ledger} (stakerTx : EntityId) (rewarded : Bool) :
    Acts configs l ((rewardStaker stakerTx rewarded).run l).2
  | opened {l l' : Ledger} {versions : Versions} {block : EntityId}
    (hresolve : versions.resolve? block = some l) (h : versions.openLayer block = .ok l') :
    Acts configs l l'
  | folded {parent : Ledger} {id : EntityId} {reachable : Bool} {changes : Changes} :
    Acts configs (.layer parent id reachable changes) (parent.fold changes)

/-- The chronicles of a ledger after a genesis. Of the two lines, the newest ledger first, the one
goes up to the last commit and the other up to the ledger itself. -/
inductive Chronicle (configs : Set StakingConfig) (g : Genesis) (config : StakingConfig) :
    List Ledger → List Ledger → Ledger → Prop
  | genesis {s : State} (h : State.fromGenesis {} g config = .ok s) :
    Chronicle configs g config [root s] [] (root s)
  | acted {kept past : List Ledger} {l l' : Ledger} (h : Chronicle configs g config kept past l)
    (hact : Acts configs l l') : Chronicle configs g config kept (l :: past) l'
  | committed {kept past : List Ledger} {s s' : State} {height : UInt64}
    (h : Chronicle configs g config kept past (root s)) (hcommit : s.commit height = .ok s') :
    Chronicle configs g config (root s' :: root s :: past) (root s :: past) (root s')
  /-- Below a layer that stays open the chronicle of its parent goes on with a fold or a commit. -/
  | beneath {kept kept' past past' : List Ledger} {parent parent' : Ledger} {id : EntityId}
    {reachable : Bool} {changes : Changes}
    (h : Chronicle configs g config kept past (.layer parent id reachable changes))
    (hparent : Chronicle configs g config kept' past' parent') (hsettles : Settles parent parent') :
    Chronicle configs g config kept' (.layer parent id reachable changes :: past)
      (.layer parent' id reachable changes)
  | reloaded {kept past : List Ledger} {l : Ledger} {s : State}
    (h : Chronicle configs g config kept past l) (hload : State.load l.store = .ok s) :
    Chronicle configs g config kept kept (root s)

/-! ## What a step does -/

/-- A step is a call that writes, or it changes nothing on top. -/
theorem Upholds.acts (h : l.Upholds c) (hact : Acts configs l l') :
    (∃ writes, l.Issues configs writes ∧ l' = l.writeAll writes) ∨ l'.Upholds c := by
  cases hact with
  | applied tx hconfig =>
      rcases issues_of_applyTx hconfig with hsame | hissues
      · exact Or.inr (hsame.symm ▸ h)
      · exact Or.inl hissues
  | advanced hverify hplan => exact Or.inl ⟨_, .advance hverify hplan, rfl⟩
  | claimed stakerTx rewarded =>
      rcases issues_of_rewardStaker stakerTx rewarded with hsame | hissues
      · exact Or.inr (hsame.symm ▸ h)
      · exact Or.inl hissues
  | @opened _ _ versions block hresolve hlayer =>
      rw [Versions.openLayer, hresolve] at hlayer
      cases hlayer
      exact Or.inr (h.opened block)
  | folded => exact Or.inr (h.settled .folded)

/-- Only commits change the store. -/
theorem Acts.store_eq (hact : Acts configs l l') : l'.store = l.store := by
  cases hact with
  | applied tx hconfig =>
      rcases issues_of_applyTx hconfig with hsame | ⟨writes, _, hafter⟩
      · rw [hsame]
      · rw [hafter, store_writeAll]
  | advanced => exact store_writeAll l _
  | claimed stakerTx rewarded =>
      rcases recompenses_of_rewardStaker stakerTx rewarded l with
        hsame | ⟨_, _, writes, _, _, _, hafter⟩
      · rw [hsame]
      · rw [hafter, store_writeAll]
  | opened hresolve hlayer =>
      rw [Versions.openLayer, hresolve] at hlayer
      cases hlayer
      rfl
  | folded => exact store_writeAll _ _

/-! ## What holds throughout -/

/-- What holds after a genesis, is kept by every call and depends on no more than the line and the
contents holds throughout a chronicle, and it will hold after a reload. -/
theorem Chronicle.invariant_reload (I : List Ledger → Contents → Prop)
    (hgenesis : ∀ {s : State} (r : State.GenesisRecord {} g s), I [] r.contents)
    (hissues : ∀ {past : List Ledger} {l : Ledger} {c : Contents} {writes : List Write},
      l.Upholds c → I past c → l.Issues configs writes → I (l :: past) (c.writeAll writes))
    (hsame : ∀ {past : List Ledger} {l : Ledger} {c : Contents}, l.Upholds c → I past c →
      I (l :: past) c)
    (h : Chronicle configs g config kept past l) :
    (∃ c, l.Upholds c ∧ I past c) ∧
      ∀ s, State.load l.store = .ok s → ∃ c, (root s).Upholds c ∧ I kept c := by
  -- Any step may be followed by a reload, so the induction carries along what that would find.
  induction h with
  | genesis hopened =>
      obtain ⟨r⟩ := State.genesisRecord_of_fromGenesis hopened
      refine ⟨⟨r.contents, r.upholds_contents, hgenesis r⟩, fun s hload => ?_⟩
      exact ⟨r.contents, r.upholds_reload hload, hsame r.upholds_contents (hgenesis r)⟩
  | acted _ hact ih =>
      obtain ⟨⟨c, hupholds, hc⟩, hreload⟩ := ih
      refine ⟨?_, hact.store_eq.symm ▸ hreload⟩
      rcases hupholds.acts hact with ⟨writes, hwrites, rfl⟩ | hupholds'
      · exact ⟨_, hupholds.issues hwrites, hissues hupholds hc hwrites⟩
      · exact ⟨c, hupholds', hsame hupholds hc⟩
  | committed _ hcommit ih =>
      -- What was found so far is overwritten by the flush.
      obtain ⟨⟨c, hupholds, hc⟩, _⟩ := ih
      have hflush := (State.flush_of_commit hcommit).1
      have hcommitted := hupholds.flush _ hflush
      refine ⟨⟨c, hcommitted, hsame hupholds hc⟩, fun s hload => ?_⟩
      exact ⟨c, hupholds.reload hflush hload, hsame hcommitted (hsame hupholds hc)⟩
  | beneath _ _ hsettles ih ihparent =>
      obtain ⟨⟨c, hupholds, hc⟩, _⟩ := ih
      exact ⟨⟨c, hupholds.settled (.beneath hsettles), hsame hupholds hc⟩, ihparent.2⟩
  | reloaded _ hload ih =>
      refine ⟨ih.2 _ hload, fun s hagain => ?_⟩
      -- The loaded root has the store that it came from.
      rw [store, (State.settled_of_load hload).1] at hagain
      exact ih.2 s hagain

theorem Chronicle.invariant (I : List Ledger → Contents → Prop)
    (hgenesis : ∀ {s : State} (r : State.GenesisRecord {} g s), I [] r.contents)
    (hissues : ∀ {past : List Ledger} {l : Ledger} {c : Contents} {writes : List Write},
      l.Upholds c → I past c → l.Issues configs writes → I (l :: past) (c.writeAll writes))
    (hsame : ∀ {past : List Ledger} {l : Ledger} {c : Contents}, l.Upholds c → I past c →
      I (l :: past) c)
    (h : Chronicle configs g config kept past l) : ∃ c, l.Upholds c ∧ I past c :=
  (h.invariant_reload I hgenesis hissues hsame).1

theorem Chronicle.upholds (h : Chronicle configs g config kept past l) : ∃ c, l.Upholds c := by
  obtain ⟨c, hupholds, _⟩ := h.invariant (fun _ _ => True) (fun _ => trivial)
    (fun _ _ _ => trivial) fun _ _ => trivial
  exact ⟨c, hupholds⟩

/-! ## Chronicles by scripts -/

/-- An instruction that succeeds is a step. -/
theorem acts_of_perform {instruction : Instruction} (h : l.perform config instruction = .ok l') :
    Acts {config} l l' := by
  cases instruction with
  | apply tx =>
      have hrun := LedgerM.ending_eq_ok_iff.mp h
      have hacts := Acts.applied (l := l) tx (Set.mem_singleton config)
      rwa [hrun] at hacts
  | advance time =>
      obtain ⟨⟨⟩, hverify, h⟩ := bind_eq_ok_iff.mp h
      obtain ⟨plan, hplan, h⟩ := bind_eq_ok_iff.mp h
      cases h
      exact .advanced hverify hplan
  | claim stakerTx rewarded =>
      have hrun := LedgerM.ending_eq_ok_iff.mp h
      have hacts : Acts {config} l _ := .claimed stakerTx rewarded
      rwa [hrun] at hacts

theorem Chronicle.foldlM_perform {script : List Instruction}
    (h : Chronicle {config} g config kept past l)
    (hscript : script.foldlM (perform config) l = .ok l') :
    ∃ line, Chronicle {config} g config kept (line ++ past) l' := by
  refine foldlM_keeps (fun l => ∃ line, Chronicle {config} g config kept (line ++ past) l)
    (fun {before _ _} hstep hbefore => ?_) hscript ⟨[], h⟩
  obtain ⟨line, hline⟩ := hbefore
  exact ⟨before :: line, hline.acted (acts_of_perform hstep)⟩

theorem chronicle_of_ofScript {script : List Instruction} (h : ofScript g config script = .ok l) :
    ∃ kept past, Chronicle {config} g config kept past l := by
  obtain ⟨s, hs, hscript⟩ := bind_eq_ok_iff.mp h
  obtain ⟨line, hline⟩ := (Chronicle.genesis hs).foldlM_perform hscript
  exact ⟨_, _, hline⟩

theorem chronicle_sample :
    ∃ kept past, Chronicle {.sample} .sample .sample kept past Ledger.sample := by
  have hends : ∃ l, ofScript .sample .sample sampleScript = .ok l ∧ True := by decide +kernel
  obtain ⟨l, hscript, _⟩ := hends
  rw [Ledger.sample, hscript]
  exact chronicle_of_ofScript hscript

end Ledger

end StakingLedger
