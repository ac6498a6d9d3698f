import Mathlib.Data.List.Forall2
import StakingLedger.Error.Basic

/-! # Answers that are given

An answer that went through several steps was given by each of them. These
lemmas take a successful computation apart.
-/

namespace StakingLedger

variable {α β : Type}

theorem bind_eq_ok_iff {x : Answer α} {f : α → Answer β} {b : β} :
    x >>= f = .ok b ↔ ∃ a, x = .ok a ∧ f a = .ok b := by
  cases x with
  | error e => exact ⟨fun h => (nomatch h), fun ⟨_, h, _⟩ => (nomatch h)⟩
  | ok a => exact ⟨fun h => ⟨a, rfl, h⟩, fun ⟨_, h, h'⟩ => by cases h; exact h'⟩

theorem map_eq_ok_iff {x : Answer α} {f : α → β} {b : β} :
    x.map f = .ok b ↔ ∃ a, x = .ok a ∧ f a = b := by
  cases x with
  | error e => exact ⟨fun h => (nomatch h), fun ⟨_, h, _⟩ => (nomatch h)⟩
  | ok a =>
      constructor
      · intro h
        exact ⟨a, rfl, Except.ok.inj h⟩
      · rintro ⟨_, h, rfl⟩
        cases h
        rfl

theorem orNotFound_eq_ok_iff {value? : Option α} {what : Missing} {a : α} :
    orNotFound value? what = .ok a ↔ value? = some a := by
  cases value? with
  | none => exact iff_of_false nofun nofun
  | some b => rw [orNotFound, Except.ok.injEq, Option.some.injEq]

/-- A list of answers was given member by member. -/
theorem mapM_eq_ok_iff {f : α → Answer β} {l : List α} {r : List β} :
    l.mapM f = .ok r ↔ List.Forall₂ (fun a b => f a = .ok b) l r := by
  induction l generalizing r with
  | nil =>
      rw [List.mapM_nil, List.forall₂_nil_left_iff]
      exact ⟨fun h => (Except.ok.inj h).symm, fun h => h ▸ rfl⟩
  | cons a l ih =>
      rw [List.mapM_cons, List.forall₂_cons_left_iff, bind_eq_ok_iff]
      constructor
      · rintro ⟨b, hb, h⟩
        obtain ⟨r', hr', h⟩ := bind_eq_ok_iff.mp h
        cases h
        exact ⟨b, r', hb, ih.mp hr', rfl⟩
      · rintro ⟨b, r', hb, hr', rfl⟩
        exact ⟨b, hb, bind_eq_ok_iff.mpr ⟨r', ih.mpr hr', rfl⟩⟩

theorem mem_of_mapM_eq_ok {f : α → Answer β} {l : List α} {r : List β} (h : l.mapM f = .ok r) :
    (∀ b ∈ r, ∃ a ∈ l, f a = .ok b) ∧ ∀ a ∈ l, ∃ b ∈ r, f a = .ok b := by
  have hall := mapM_eq_ok_iff.mp h
  clear h
  induction hall with
  | nil => simp
  | cons hab _ ih =>
      refine ⟨fun b hb => ?_, fun a ha => ?_⟩
      · rcases List.mem_cons.mp hb with rfl | hb
        · exact ⟨_, List.mem_cons_self, hab⟩
        · obtain ⟨a, ha, hfa⟩ := ih.1 b hb
          exact ⟨a, List.mem_cons_of_mem _ ha, hfa⟩
      · rcases List.mem_cons.mp ha with rfl | ha
        · exact ⟨_, List.mem_cons_self, hab⟩
        · obtain ⟨b, hb, hfb⟩ := ih.2 a ha
          exact ⟨b, List.mem_cons_of_mem _ hb, hfb⟩

theorem exists_mapM_eq_ok {f : α → Answer β} {l : List α} (h : ∀ a ∈ l, ∃ b, f a = .ok b) :
    ∃ r, l.mapM f = .ok r := by
  induction l with
  | nil => exact ⟨[], rfl⟩
  | cons a l ih =>
      obtain ⟨b, hb⟩ := h a List.mem_cons_self
      obtain ⟨r, hr⟩ := ih fun a' ha' => h a' (List.mem_cons_of_mem _ ha')
      exact ⟨b :: r, mapM_eq_ok_iff.mpr (.cons hb (mapM_eq_ok_iff.mp hr))⟩

/-- What every step keeps holds in the end of a series of steps. -/
theorem foldlM_keeps (Keeps : α → Prop) {step : α → β → Answer α}
    (hstep : ∀ {a b i}, step a i = .ok b → Keeps a → Keeps b) {items : List β} {a b : α}
    (h : items.foldlM step a = .ok b) (ha : Keeps a) : Keeps b := by
  induction items generalizing a with
  | nil =>
      cases h
      exact ha
  | cons i rest ih =>
      obtain ⟨between, hfirst, hrest⟩ := bind_eq_ok_iff.mp h
      exact ih hrest (hstep hfirst ha)

theorem bind_ok (a : α) (f : α → Answer β) : ((Except.ok a : Answer α) >>= f) = f a := rfl

theorem exists_eq_ok_of_isOk {x : Answer α} (h : x.isOk = true) : ∃ a, x = .ok a := by
  cases x with
  | error e => cases h
  | ok a => exact ⟨a, rfl⟩

end StakingLedger
